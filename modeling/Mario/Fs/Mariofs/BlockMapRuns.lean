import Mario.Fs.Mariofs.BlockMap
import Mathlib.Logic.Function.Iterate

/-!
# The block maps follow the chains

Whatever is read, written, truncated and extended, a block map that is there is the chain of its file, and the blocks that
`mario_nth_block` answers are those that the links lead to.
-/

namespace Mario.Fs.Mariofs.Maps

open Mario.Lib Mario.Fs.Mariofs Function

variable {v v' : Volume} {s s' : State} {free : List ℕ} {cells : ℕ → List ℕ} {nd : Node} {a : Calls} {site : Site}
  {id n b nr head tail : ℕ} {map l : List ℕ} {read : ℕ → Bool} {next : ℕ → ℕ}

/-! ## Chains whose free count is wrong -/

/-- A state whose free count is that of its free chain. Blocks that are given back are not counted. -/
def recount (s : State) (free : List ℕ) : State := { s with nrFree := free.length }

/-- The chains of a state, whatever its free count. -/
def Laid (s : State) (free : List ℕ) (cells : ℕ → List ℕ) : Prop := Layout (recount s free) free cells

theorem laid_of_layout (h : Layout s free cells) : Laid s free cells := by
  have hsame : recount s free = s := by
    rw [recount, ← h.count]
  rw [Laid, hsame]
  exact h

theorem Laid.getBlock (h : Laid s free cells) (hget : s.getBlock read nr = .ok (head, tail, s')) :
    ∃ taken rest, Taken (recount s free) cells nr head tail (recount s' rest) taken rest ∧
      rest.length = free.length - nr := by
  rw [State.getBlock] at hget
  split_ifs at hget with hzero hspace
  split at hget
  · cases hget
  · rename_i k rest htake
    obtain ⟨rfl, rfl, rfl⟩ := (by simpa using hget : s.free = head ∧ k = tail ∧ _ = s')
    obtain ⟨l₁, l₂, hfree, hlength⟩ := takeBlocks_some h.linked htake
    have hle : nr ≤ free.length := by rw [hfree, List.length_append, hlength]; omega
    have hget' : (recount s free).getBlock read nr = .ok (s.free, k,
        { recount s free with
          next := update s.next k 0, free := rest, nrFree := free.length - nr }) := by
      rw [State.getBlock, if_neg hzero, if_neg (by simpa [recount] using hle)]
      simp only [recount, htake]
    obtain ⟨taken, rest', htaken⟩ := Layout.getBlock h hget'
    refine ⟨taken, rest', ?_, htaken.count.symm⟩
    have hcount : free.length - nr = rest'.length := htaken.count
    rw [hcount] at htaken
    exact htaken

/-- A chain that belongs to nothing is given back. The last block is not known when the chain could not be followed; then
the old free chain gets lost. -/
theorem Laid.put (h : Laid s free cells) (hlinked : Linked s.next 0 head l)
    (hcells : ∀ i, (cells i).Disjoint l) (hfree : l.Disjoint free) (hinside : ∀ b ∈ l, b < s.nrBlocks)
    (htail : (∃ front, l = front ++ [tail]) ∨ tail = 0) :
    ∃ free', Laid { s with next := update s.next tail s.free, free := head } free' cells := by
  have hout : ∀ i, tail ∉ cells i := by
    intro i hmem
    rcases htail with ⟨front, rfl⟩ | rfl
    · exact hcells i hmem (by simp)
    · cases hnode : (recount s free).node i with
      | none => rw [h.gone i hnode] at hmem; cases hmem
      | some nd => exact (h.node i nd hnode).zero_not_mem hmem
  have hnode : ∀ i nd, s.node i = some nd → Chain (update s.next tail s.free) nd (cells i) := by
    intro i nd hi
    refine (h.node i nd hi).congr fun b hb => update_of_ne ?_ _ _
    rintro rfl
    exact hout i hb
  rcases htail with ⟨front, rfl⟩ | rfl
  · refine ⟨(front ++ [tail]) ++ free, ?_, rfl, hnode, h.gone, h.inside, ?_, ?_, h.disjoint⟩
    · have hfront : tail ∉ front := fun hmem =>
        (List.nodup_append.mp hlinked.nodup).2.2 tail hmem tail (by simp) rfl
      refine (hlinked.leads.redirect hfront s.free).linked hlinked.null_not_mem ?_
      refine h.linked.congr fun b hb => update_of_ne ?_ _ _
      rintro rfl
      exact hfree (by simp) hb
    · exact fun b hb => (List.mem_append.mp hb).elim (hinside b) (h.inside' b)
    · exact fun i b hb hmem => (List.mem_append.mp hmem).elim (fun hl => hcells i hb hl) (h.apart i hb)
  · refine ⟨l, ?_, rfl, hnode, h.gone, h.inside, hinside, hcells, h.disjoint⟩
    refine hlinked.congr fun b hb => update_of_ne ?_ _ _
    rintro rfl
    exact hlinked.null_not_mem hb

/-! ## Following a chain -/

theorem buildMap_eq (read : ℕ → Bool) (h : Linked next 0 b l) (hb : b ≠ 0) :
    buildMap read next l.length b = some l ∨
      buildMap read next l.length b = none ∧ ∃ c ∈ l.dropLast, read c = false := by
  induction l generalizing b with
  | nil => exact absurd h hb
  | cons c l ih =>
    obtain ⟨rfl, -, hrest⟩ := h
    cases l with
    | nil => exact .inl rfl
    | cons d l =>
      have hnext : next b ≠ 0 := by
        rw [hrest.1]
        exact hrest.2.1
      simp only [List.length_cons, buildMap, if_neg hnext]
      by_cases hread : read b = false
      · exact .inr ⟨if_pos hread, b, List.mem_cons_self, hread⟩
      · rw [if_neg hread]
        rcases ih hrest hnext with heq | ⟨heq, c, hc, hcread⟩
        · rw [List.length_cons] at heq
          exact .inl (by rw [heq]; rfl)
        · rw [List.length_cons] at heq
          exact .inr ⟨by rw [heq]; rfl, c, List.mem_cons_of_mem b hc, hcread⟩

theorem Linked.getElem_iterate {null p : ℕ} (h : Linked next null p l) (hn : n < l.length) : l[n] = next^[n] p := by
  induction n generalizing p l with
  | zero =>
    cases l with
    | nil => simp at hn
    | cons c l => exact h.1.symm
  | succ n ih =>
    cases l with
    | nil => simp at hn
    | cons c l =>
      obtain ⟨rfl, -, hrest⟩ := h
      rw [List.getElem_cons_succ, ih hrest (by simpa using hn), Function.iterate_succ_apply]

/-- What a map answers for the block at an index of the chain. -/
theorem lookup_chain {p : ℕ} (h : Linked next 0 p l) (hpos : 1 ≤ n) (hn : n ≤ l.length) :
    lookup l n = (n, next^[n - 1] p) := by
  have hlt : n - 1 < l.length := by omega
  rw [lookup, if_neg (by omega), if_neg (by omega), if_neg (by omega), List.getD_eq_getElem?_getD,
    List.getElem?_eq_getElem hlt, Option.getD_some, Linked.getElem_iterate h hlt]

theorem lookup_zero {front : List ℕ} : lookup (front ++ [b]) 0 = (front.length + 1, b) := by
  simp [lookup]

/-- Following the links answers the block, or one of them cannot be read. -/
theorem chainNth_eq {left i : ℕ} (h : Linked next 0 b l) (hb : b ≠ 0) (hi : i ≤ n) (hn : n - i < l.length)
    (hleft : l.length ≤ left) :
    chainNth read next n left i b = .ok (n, next^[n - i] b) ∨
      (∃ e, chainNth read next n left i b = .error e) ∧ ∃ c ∈ l.dropLast, read c = false := by
  induction left generalizing i b l with
  | zero => omega
  | succ left ih =>
    obtain ⟨l', rfl, hrest⟩ := h.exists_cons hb
    rw [chainNth]
    by_cases heq : n = i
    · subst heq
      rw [if_pos rfl, Nat.sub_self]
      exact .inl rfl
    · rw [if_neg heq]
      have hnil : l' ≠ [] := by
        rintro rfl
        simp only [List.length_singleton] at hn
        omega
      rw [List.dropLast_cons_of_ne_nil hnil]
      by_cases hread : read b = false
      · rw [if_pos hread]
        exact .inr ⟨⟨_, rfl⟩, b, List.mem_cons_self, hread⟩
      · rw [if_neg hread]
        have hnext : next b ≠ 0 := by
          intro hzero
          rw [hzero] at hrest
          exact hnil hrest.eq_nil
        rw [if_neg hnext, show n - i = (n - (i + 1)) + 1 by omega, Function.iterate_succ_apply]
        simp only [List.length_cons] at hn hleft
        rcases ih (i := i + 1) hrest hnext (by omega) (by omega) (by omega) with heq | ⟨herr, c, hc, hcread⟩
        · exact .inl heq
        · exact .inr ⟨herr, c, List.mem_cons_of_mem b hc, hcread⟩

theorem chainNth_zero {left i : ℕ} {r : ℕ × ℕ} (h : Linked next 0 b l) (hb : b ≠ 0) (hi : 1 ≤ i)
    (hleft : l.length ≤ left) (hok : chainNth read next 0 left i b = .ok r) : ∃ front, l = front ++ [r.2] := by
  induction left generalizing i b l with
  | zero => exact absurd (List.eq_nil_of_length_eq_zero (by omega)) (h.ne_nil hb)
  | succ left ih =>
    obtain ⟨l', rfl, hrest⟩ := h.exists_cons hb
    rw [chainNth, if_neg (by omega)] at hok
    split_ifs at hok with hread hnext
    · cases hok
      rw [hnext] at hrest
      rw [hrest.eq_nil]
      exact ⟨[], rfl⟩
    · obtain ⟨front, hfront⟩ := ih hrest hnext (by omega) (by simpa using hleft) hok
      exact ⟨b :: front, by rw [List.cons_append, ← hfront]⟩

/-! ## The invariant -/

/-- The maps that are there are the chains of their files. -/
structure Coherent (v : Volume) (free : List ℕ) (cells : ℕ → List ℕ) : Prop where
  laid : Laid v.toState free cells
  maps : ∀ id map, v.map id = some map →
    map = cells id ∧ map ≠ [] ∧ ∃ nd, v.node id = some nd ∧ nd.kind = .regular

theorem Coherent.congr (h : Coherent v free cells) (hstate : v'.toState = v.toState) (hmap : v'.map = v.map) :
    Coherent v' free cells := by
  refine ⟨by rw [hstate]; exact h.laid, fun id map hid => ?_⟩
  rw [hmap] at hid
  rw [hstate]
  exact h.maps id map hid

theorem Coherent.destroyMap (h : Coherent v free cells) (id : ℕ) : Coherent (v.destroyMap id) free cells := by
  refine ⟨h.laid, fun i map hi => h.maps i map ?_⟩
  have hmap : update v.map id none i = some map := hi
  by_cases heq : i = id
  · subst heq
    rw [update_self] at hmap
    cases hmap
  · rwa [update_of_ne heq] at hmap

theorem Coherent.redraw {free' : List ℕ} (h : Coherent v free cells)
    (hlaid : Laid v'.toState free' (update cells id l)) (hmap : v'.map = update v.map id none)
    (hnode : ∀ i ≠ id, v'.node i = v.node i) : Coherent v' free' (update cells id l) := by
  refine ⟨hlaid, fun i map hi => ?_⟩
  rw [hmap] at hi
  by_cases heq : i = id
  · subst heq
    rw [update_self] at hi
    cases hi
  · rw [update_of_ne heq] at hi ⊢
    rw [hnode i heq]
    exact h.maps i map hi

/-- The first block and the chain of a file that has blocks. -/
theorem Coherent.linked (h : Coherent v free cells) (hnode : v.node id = some nd) (hkind : nd.kind = .regular)
    (hpos : nd.nrBlock ≠ 0) : nd.rdev ≠ 0 ∧ Linked v.next 0 nd.rdev (cells id) := by
  have hhead : nd.head = some nd.rdev := by rw [head_of_regular hkind, if_neg hpos]
  obtain ⟨hne, hlinked, -⟩ := Layout.of_head h.laid hnode hhead
  exact ⟨hne, hlinked⟩

theorem Coherent.length (h : Coherent v free cells) (hnode : v.node id = some nd) (hkind : nd.kind = .regular) :
    (cells id).length = nd.nrBlock := by
  by_cases hzero : nd.nrBlock = 0
  · have hchain := h.laid.node id nd hnode
    rw [Chain, head_of_regular hkind, if_pos hzero] at hchain
    rw [show cells id = [] from hchain, hzero]
    rfl
  · have hhead : nd.head = some nd.rdev := by rw [head_of_regular hkind, if_neg hzero]
    exact (Layout.of_head h.laid hnode hhead).2.2 hkind

theorem Coherent.nrBlock_ne_zero (h : Coherent v free cells) (hnode : v.node id = some nd)
    (hkind : nd.kind = .regular) (hb : b ∈ cells id) : nd.nrBlock ≠ 0 := by
  rw [← h.length hnode hkind]
  exact fun hzero => List.ne_nil_of_mem hb (List.eq_nil_of_length_eq_zero hzero)

theorem Coherent.length_le (h : Coherent v free cells) (id : ℕ) : (cells id).length ≤ v.nrBlocks :=
  length_le_of_nodup (Layout.nodup h.laid id) (h.laid.inside id)

theorem Coherent.map_eq_none (h : Coherent v free cells) (hnode : v.node id = some nd) (hkind : nd.kind ≠ .regular) :
    v.map id = none := by
  by_contra hsome
  obtain ⟨map, hmap⟩ := Option.ne_none_iff_exists'.mp hsome
  obtain ⟨-, -, nd', hnd', hreg⟩ := h.maps id map hmap
  obtain rfl := Option.some.inj (hnode.symm.trans hnd')
  exact hkind hreg

/-- There is no map, and memory for one or a link of the chain is missing. -/
def Blind (v : Volume) (a : Calls) (site : Site) (id : ℕ) (cells : ℕ → List ℕ) : Prop :=
  v.map id = none ∧ (a.memory site = false ∨ ∃ b ∈ (cells id).dropLast, a.read site b = false)

/-- `mario_nth_block` for a file answers from the chain and may install the map, or it fails. -/
theorem Coherent.nthBlock (h : Coherent v free cells) (hnode : v.node id = some nd) (hkind : nd.kind = .regular)
    (a : Calls) (site : Site) (n : ℕ) :
    (∃ map, nthBlock v id nd a site n = (.ok (lookup (cells id) n), v.setMap id map) ∧
        Coherent (v.setMap id map) free cells) ∨
      (∃ e, nthBlock v id nd a site n = (.error e, v)) ∧ Blind v a site id cells := by
  have hkeep : v.setMap id (v.map id) = v := by rw [Volume.setMap, update_eq_self]
  have hlength := h.length hnode hkind
  rw [Maps.nthBlock, if_neg (not_not.mpr hkind)]
  cases hmap : v.map id with
  | some map =>
    left
    obtain ⟨rfl, -⟩ := h.maps id map hmap
    rw [hmap] at hkeep
    exact ⟨_, by rw [hkeep], hkeep.symm ▸ h⟩
  | none =>
    dsimp only
    rw [allocBlockMap]
    by_cases hzero : nd.nrBlock = 0
    · left
      rw [hmap] at hkeep
      have hnil : cells id = [] := List.eq_nil_of_length_eq_zero (hlength.trans hzero)
      exact ⟨none, by simp [hzero, hnil, lookup, hkeep], hkeep.symm ▸ h⟩
    · rw [if_neg hzero, if_neg (by rw [← hlength]; exact Nat.not_lt.mpr (h.length_le id))]
      by_cases hmem : a.memory site = false
      · rw [if_pos hmem]
        exact .inr ⟨⟨_, rfl⟩, hmap, .inl hmem⟩
      · rw [if_neg hmem]
        obtain ⟨hne, hlinked⟩ := h.linked hnode hkind hzero
        have hbuild := buildMap_eq (a.read site) hlinked hne
        rw [hlength] at hbuild
        rcases hbuild with heq | ⟨heq, hread⟩
        · left
          refine ⟨some (cells id), ?_, ?_⟩
          · rw [heq]
            dsimp only
            rw [if_neg (by rw [hlength]; exact hzero)]
          · refine ⟨h.laid, fun i map hi => ?_⟩
            have hi' : update v.map id (some (cells id)) i = some map := hi
            by_cases hid : i = id
            · subst hid
              rw [update_self] at hi'
              cases hi'
              exact ⟨rfl, hlinked.ne_nil hne, nd, hnode, hkind⟩
            · rw [update_of_ne hid] at hi'
              exact h.maps i map hi'
        · rw [heq]
          exact .inr ⟨⟨_, rfl⟩, hmap, .inr hread⟩

theorem Coherent.nthBlock_snd (h : Coherent v free cells) (hnode : v.node id = some nd)
    (hkind : nd.kind = .regular) (a : Calls) (site : Site) (n : ℕ) :
    ∃ map, (Maps.nthBlock v id nd a site n).2 = v.setMap id map ∧ Coherent (v.setMap id map) free cells := by
  rcases h.nthBlock hnode hkind a site n with ⟨map, heq, hcoherent⟩ | ⟨⟨e, heq⟩, -⟩
  · exact ⟨map, by rw [heq], hcoherent⟩
  · have hkeep : v.setMap id (v.map id) = v := by rw [Volume.setMap, update_eq_self]
    exact ⟨v.map id, by rw [heq, hkeep], hkeep.symm ▸ h⟩

/-! ## Truncating -/

theorem lookup_last (hl : l ≠ []) : ∃ front last, l = front ++ [last] ∧ lookup l 0 = (l.length, last) := by
  obtain ⟨front, last, rfl⟩ := (List.eq_nil_or_concat' l).resolve_left hl
  exact ⟨front, last, rfl, by rw [lookup_zero, List.length_append, List.length_singleton]⟩

theorem putBlock_eq (v : Volume) (a : Calls) (head tail : ℕ) :
    v.putBlock a head tail = v ∨
      v.putBlock a head tail = v.withState { v.toState with next := update v.next tail v.free, free := head } := by
  rw [Volume.putBlock, State.putBlock]
  split_ifs
  · exact .inr rfl
  · exact .inl rfl

/-- Blocks that belong to nothing are given back, or they are lost. -/
theorem Coherent.putBlock (h : Coherent v free cells) (hlinked : Linked v.next 0 head l)
    (hcells : ∀ i, (cells i).Disjoint l) (hfree : l.Disjoint free) (hinside : ∀ b ∈ l, b < v.nrBlocks)
    (htail : (∃ front, l = front ++ [tail]) ∨ tail = 0) : ∃ free', Coherent (v.putBlock a head tail) free' cells := by
  rcases putBlock_eq v a head tail with heq | heq <;> rw [heq]
  · exact ⟨free, h⟩
  · obtain ⟨free', hlaid⟩ := h.laid.put hlinked hcells hfree hinside htail
    exact ⟨free', hlaid, h.maps⟩

theorem Coherent.getBlock (h : Coherent v free cells) (hget : v.toState.getBlock read nr = .ok (head, tail, s)) :
    ∃ taken rest, Taken (recount v.toState free) cells nr head tail (recount s rest) taken rest ∧
      Coherent (v.withState s) rest cells ∧ s.node = v.node := by
  obtain ⟨taken, rest, htaken, -⟩ := h.laid.getBlock hget
  have hnode : s.node = v.node := htaken.node_eq
  refine ⟨taken, rest, htaken, ⟨htaken.toLayout, fun id map hid => ?_⟩, hnode⟩
  have hold := h.maps id map hid
  rw [← hnode] at hold
  exact hold

theorem Coherent.truncated {rdev size : ℕ} {free' : List ℕ} (h : Coherent v free cells)
    (hlaid : Laid (s.setNode id (some { nd with rdev := rdev, nrBlock := n })) free' (update cells id l))
    (hnode : s.node = v.node) :
    Coherent ((v.withState s).truncated id nd rdev n size) free' (update cells id l) := by
  refine h.redraw hlaid rfl fun i hi => ?_
  exact (update_of_ne hi _ _).trans (congrFun hnode i)

theorem Coherent.truncated_putBlock {rdev size : ℕ} {given : List ℕ} (h : Coherent v free cells)
    (hlaid : Laid (s.setNode id (some { nd with rdev := rdev, nrBlock := n })) free (update cells id l))
    (hnode : s.node = v.node) (hlinked : Linked s.next 0 head given)
    (hcells : ∀ i, (update cells id l i).Disjoint given) (hfree : given.Disjoint free)
    (hinside : ∀ b ∈ given, b < s.nrBlocks) (htail : (∃ front, given = front ++ [tail]) ∨ tail = 0) :
    ∃ free', Coherent (((v.withState s).putBlock a head tail).truncated id nd rdev n size) free'
      (update cells id l) := by
  rcases putBlock_eq (v.withState s) a head tail with heq | heq <;> rw [heq]
  · exact ⟨free, h.truncated hlaid hnode⟩
  · obtain ⟨free', hput⟩ := hlaid.put hlinked hcells hfree hinside htail
    exact ⟨free', h.truncated hput hnode⟩

theorem Coherent.truncate_grow {size : ℕ} (h : Coherent v free cells) (hnode : v.node id = some nd)
    (hkind : nd.kind = .regular) (hlt : nd.nrBlock < (size + maxUsed - 1) / maxUsed) :
    ∃ free' cells', Coherent (truncate v id nd a size) free' cells' := by
  rw [truncate]
  dsimp only
  rw [if_pos hlt]
  generalize (size + maxUsed - 1) / maxUsed = n at hlt ⊢
  have h₁ := h.destroyMap id
  split
  · exact ⟨free, cells, h₁⟩
  · rename_i head tail s hget
    obtain ⟨taken, rest, htaken, h₂, hsame⟩ := h₁.getBlock hget
    by_cases hzero : nd.nrBlock = 0
    · rw [if_pos hzero]
      refine ⟨rest, _, h₂.truncated (htaken.setNode ?_ fun _ => ?_) rfl⟩
      · exact (head_of_regular (by exact hkind)).trans (if_neg (by dsimp only; omega))
      · dsimp only; omega
    · rw [if_neg hzero]
      have hnode₂ : ((v.destroyMap id).withState s).node id = some nd := hsame ▸ hnode
      rcases h₂.nthBlock hnode₂ hkind a .map 0 with ⟨map, heq, h₃⟩ | ⟨⟨e, heq⟩, -⟩
      · obtain ⟨hne, hlinked⟩ := h₂.linked hnode₂ hkind hzero
        obtain ⟨front, last, hlast, hlookup⟩ := lookup_last (hlinked.ne_nil hne)
        rw [heq, hlookup]
        dsimp only
        split_ifs
        · exact ⟨rest, cells, h₃⟩
        · refine ⟨rest, _, h₃.truncated (htaken.extend hnode₂ hlast ?_ rfl fun _ => ?_) rfl⟩
          · rw [head_of_regular hkind, if_neg hzero]
            exact (head_of_regular (by exact hkind)).trans (if_neg (by dsimp only; omega))
          · dsimp only; omega
        · have htail : ∃ front, taken = front ++ [tail] := by
            refine htaken.taken_linked.eq_append_of_null htaken.mem ?_
            rw [htaken.next_eq, update_self]
          obtain ⟨free', h₄⟩ := h₃.putBlock htaken.taken_linked htaken.taken_cells htaken.taken_rest
            htaken.taken_inside (.inl htail)
          exact ⟨free', cells, h₄⟩
      · rw [heq]
        exact ⟨rest, cells, h₂⟩

/-- The last block for a truncation, which is zero when the chain cannot be followed. -/
theorem Coherent.stored_last (h : Coherent v free cells) (hnode : v.node id = some nd) (hkind : nd.kind = .regular)
    (hpos : nd.nrBlock ≠ 0) (a : Calls) :
    (∃ front, cells id = front ++ [stored (Maps.nthBlock v id nd a .map 0).1]) ∨
      stored (Maps.nthBlock v id nd a .map 0).1 = 0 := by
  rcases h.nthBlock hnode hkind a .map 0 with ⟨map, heq, -⟩ | ⟨⟨e, heq⟩, -⟩
  · obtain ⟨hne, hlinked⟩ := h.linked hnode hkind hpos
    obtain ⟨front, last, hlast, hlookup⟩ := lookup_last (hlinked.ne_nil hne)
    rw [heq, hlookup]
    exact .inl ⟨front, hlast⟩
  · rw [heq]
    exact .inr rfl

theorem split_at (hpos : 1 ≤ n) (hlt : n < l.length) :
    ∃ front last back, l = front ++ [last] ++ back ∧ front.length = n - 1 ∧ back ≠ [] ∧ lookup l n = (n, last) := by
  have hlast : n - 1 < l.length := by omega
  refine ⟨l.take (n - 1), l[n - 1], l.drop n, ?_, ?_, ?_, ?_⟩
  · have htake : l.take n = l.take (n - 1) ++ [l[n - 1]] := by
      conv_lhs => rw [show n = n - 1 + 1 by omega]
      exact List.take_succ_eq_append_getElem hlast
    rw [← htake, List.take_append_drop]
  · rw [List.length_take]
    omega
  · intro hnil
    have := List.drop_eq_nil_iff.mp hnil
    omega
  · rw [lookup, if_neg (by omega), if_neg (by omega), if_neg (by omega), List.getD_eq_getElem?_getD,
      List.getElem?_eq_getElem hlast, Option.getD_some]

theorem Coherent.truncate_zero {size : ℕ} (h : Coherent v free cells) (hnode : v.node id = some nd)
    (hkind : nd.kind = .regular) (hpos : nd.nrBlock ≠ 0) (htail : (∃ front, cells id = front ++ [tail]) ∨ tail = 0) :
    ∃ free' cells', Coherent ((v.putBlock a nd.rdev tail).truncated id nd marioZeroEntry 0 size) free' cells' := by
  obtain ⟨-, hlinked⟩ := h.linked hnode hkind hpos
  have hlaid : Laid (v.setNode id (some { nd with rdev := marioZeroEntry, nrBlock := 0 })) free
      (update cells id []) := by
    refine Layout.setNode_nil h.laid id _ fun nd' hnd' => ?_
    cases hnd'
    exact (head_of_regular (by exact hkind)).trans (if_pos rfl)
  have hcells : ∀ i, (update cells id [] i).Disjoint (cells id) := by
    intro i
    by_cases hi : i = id
    · subst hi
      rw [update_self]
      exact List.disjoint_nil_left _
    · rw [update_of_ne hi]
      exact h.laid.disjoint i id hi
  obtain ⟨free', h'⟩ := h.truncated_putBlock (a := a) hlaid rfl hlinked hcells (h.laid.apart id)
    (h.laid.inside id) htail
  exact ⟨free', _, h'⟩

theorem Coherent.truncate_cut {size last : ℕ} {front back : List ℕ} (h : Coherent v free cells)
    (hnode : v.node id = some nd) (hkind : nd.kind = .regular) (hsplit : cells id = front ++ [last] ++ back)
    (hn : n = front.length + 1) (htail : (∃ front, cells id = front ++ [tail]) ∨ tail = 0) (hback : back ≠ []) :
    ∃ free' cells', Coherent
      (((v.withState (v.setNext last 0)).putBlock a (v.next last) tail).truncated id nd nd.rdev n size) free' cells' := by
  have hlength := h.length hnode hkind
  have hpos : nd.nrBlock ≠ 0 := by
    rw [← hlength, hsplit]
    simp
  obtain ⟨hne, hlinked⟩ := h.linked hnode hkind hpos
  have hnodup := hlinked.nodup
  rw [hsplit] at hlinked hnodup
  obtain ⟨q, hleads, hrest⟩ := hlinked.suffix
  obtain ⟨hkeep, -, happ⟩ := List.nodup_append.mp hnodup
  have hfront : last ∉ front := fun hmem => (List.nodup_append.mp hkeep).2.2 last hmem last (by simp) rfl
  have hlast : last ∉ back := fun hmem => happ last (by simp) last hmem rfl
  have hq : q = v.next last := by
    obtain ⟨b, -, rfl, hb⟩ := hleads.split
    exact hb.symm
  subst hq
  have hnull : 0 ∉ front ++ [last] := fun hmem => hlinked.null_not_mem (List.mem_append_left _ hmem)
  have hcut : Linked (update v.next last 0) 0 nd.rdev (front ++ [last]) := by
    have hlinked' := (hleads.redirect hfront 0).linked hnull (show Linked _ 0 0 [] from rfl)
    rwa [List.append_nil] at hlinked'
  have hlaid : Laid ((v.setNext last 0).setNode id (some { nd with rdev := nd.rdev, nrBlock := n })) free
      (update cells id (front ++ [last])) := by
    refine Layout.change (w := []) (g := update v.next last 0) h.laid (by simp) (by simp) (fun _ => by simp)
      rfl (fun b hb _ => update_of_ne ?_ _ _) (fun nd' hnd' => ?_) (fun hnone => by cases hnone)
      (fun b hb => .inl ?_)
    · rintro rfl
      exact hb (by rw [hsplit]; simp)
    · cases hnd'
      rw [Chain, (head_of_regular (by exact hkind)).trans (if_neg (by dsimp only; omega))]
      exact ⟨hne, hcut, fun _ => by simp [hn]⟩
    · rw [hsplit]
      exact List.mem_append_left _ hb
  have hsub : ∀ b ∈ back, b ∈ cells id := fun b hb => by
    rw [hsplit]
    exact List.mem_append_right _ hb
  have hcells : ∀ i, (update cells id (front ++ [last]) i).Disjoint back := by
    intro i
    by_cases hi : i = id
    · subst hi
      rw [update_self]
      exact fun b hb hmem => happ b hb b hmem rfl
    · rw [update_of_ne hi]
      exact fun b hb hmem => h.laid.disjoint i id hi hb (hsub b hmem)
  have htail' : (∃ front, back = front ++ [tail]) ∨ tail = 0 := by
    refine htail.imp_left fun htail => ?_
    obtain ⟨front', hfront'⟩ := htail
    obtain ⟨back', b, rfl⟩ := (List.eq_nil_or_concat' back).resolve_left hback
    rw [hsplit, ← List.append_assoc] at hfront'
    obtain ⟨-, hb⟩ := List.append_inj' hfront' rfl
    exact ⟨back', by rw [hb]⟩
  obtain ⟨free', h'⟩ := h.truncated_putBlock (a := a) (s := v.setNext last 0) hlaid rfl
    (hrest.congr fun b hb => update_of_ne (fun heq : b = last => hlast (heq ▸ hb)) _ _) hcells
    (fun b hb hmem => h.laid.apart id (hsub b hb) hmem) (fun b hb => h.laid.inside id b (hsub b hb)) htail'
  exact ⟨free', _, h'⟩

theorem Coherent.truncate_shrink {size : ℕ} (h : Coherent v free cells) (hnode : v.node id = some nd)
    (hkind : nd.kind = .regular) (hlt : (size + maxUsed - 1) / maxUsed < nd.nrBlock) :
    ∃ free' cells', Coherent (truncate v id nd a size) free' cells' := by
  rw [truncate]
  dsimp only
  rw [if_neg (Nat.not_lt.mpr (Nat.le_of_lt hlt)), if_pos hlt]
  generalize (size + maxUsed - 1) / maxUsed = n at hlt ⊢
  have h₁ := h.destroyMap id
  have hpos : nd.nrBlock ≠ 0 := by omega
  have hnode₁ : (v.destroyMap id).node id = some nd := hnode
  have htail := h₁.stored_last hnode₁ hkind hpos a
  obtain ⟨map, heq, h₂⟩ := h₁.nthBlock_snd hnode₁ hkind a .map 0
  have hnode₂ : ((v.destroyMap id).setMap id map).node id = some nd := hnode
  rw [heq]
  generalize stored (Maps.nthBlock (v.destroyMap id) id nd a .map 0).1 = tail at htail ⊢
  generalize (v.destroyMap id).setMap id map = u at h₂ hnode₂ ⊢
  by_cases hzero : n = 0
  · subst hzero
    exact h₂.truncate_zero hnode₂ hkind hpos htail
  · rw [if_neg hzero]
    rcases h₂.nthBlock hnode₂ hkind a .mapAgain n with ⟨map', heq', h₃⟩ | ⟨⟨e, heq'⟩, -⟩
    · obtain ⟨front, last, back, hsplit, hfront, hback, hlookup⟩ :=
        split_at (n := n) (l := cells id) (by omega) (by rw [h₂.length hnode₂ hkind]; exact hlt)
      rw [heq', hlookup]
      dsimp only
      split_ifs with hne hread
      · exact ⟨free, cells, h₃⟩
      · exact h₃.truncate_cut hnode₂ hkind hsplit (by omega) htail hback
      · exact ⟨free, cells, h₃⟩
    · rw [heq']
      exact ⟨free, cells, h₂⟩

theorem Coherent.truncate (h : Coherent v free cells) (hnode : v.node id = some nd) (hkind : nd.kind = .regular)
    (size : ℕ) : ∃ free' cells', Coherent (Maps.truncate v id nd a size) free' cells' := by
  rcases Nat.lt_trichotomy nd.nrBlock ((size + maxUsed - 1) / maxUsed) with hlt | heq | hlt
  · exact h.truncate_grow hnode hkind hlt
  · rw [Maps.truncate]
    dsimp only
    rw [if_neg (by omega), if_neg (by omega), ← heq]
    have hsame : v.setNode id (some nd) = v.toState := by
      rw [State.setNode, ← hnode, update_eq_self]
    refine ⟨free, cells, (h.destroyMap id).congr hsame ?_⟩
    change update (update v.map id none) id none = update v.map id none
    rw [update_idem]
  · exact h.truncate_shrink hnode hkind hlt

/-! ## Writing -/

/-- A write is at a block of its file. -/
def Writing.Sound (w : Writing) (id : ℕ) : Prop :=
  ∃ free cells, Coherent w.vol free cells ∧ w.vol.node id = some w.node ∧ w.node.kind = .regular ∧ w.block ∈ cells id

variable {w w' : Writing} {stop : ℕ}

theorem Writing.Sound.fillBlock (h : w.Sound id) (n : ℕ) : (w.fillBlock n).Sound id := by
  obtain ⟨free, cells, hvol, hrest⟩ := h
  exact ⟨free, cells, hvol.congr rfl rfl, hrest⟩

theorem Coherent.getBlock_one {new : ℕ} (h : Coherent v free cells)
    (hget : v.toState.getBlock read 1 = .ok (new, tail, s)) :
    ∃ rest, Taken (recount v.toState free) cells 1 new new (recount s rest) [new] rest ∧
      rest.length = free.length - 1 := by
  obtain ⟨taken, rest, htaken, hlength⟩ := h.laid.getBlock hget
  obtain ⟨c, rfl⟩ := List.length_eq_one_iff.mp htaken.length
  obtain rfl : new = c := htaken.taken_linked.1
  obtain rfl : tail = new := List.mem_singleton.mp htaken.mem
  exact ⟨rest, htaken, hlength⟩

/-- A file gets one more block at its end, and its map is destroyed. -/
theorem Coherent.addBlock {new : ℕ} {rest : List ℕ} (h : Coherent v free cells) (hnode : v.node id = some nd)
    (hkind : nd.kind = .regular) (hblock : b ∈ cells id) (hnext : v.next b = 0)
    (htaken : Taken (recount v.toState free) cells 1 new new (recount s rest) [new] rest) :
    Coherent ((v.withState ((s.setNext b new).setNode id (some { nd with nrBlock := nd.nrBlock + 1 }))).destroyMap id)
      rest (update cells id (cells id ++ [new])) := by
  have hpos := h.nrBlock_ne_zero hnode hkind hblock
  obtain ⟨-, hlinked⟩ := h.linked hnode hkind hpos
  obtain ⟨front, hfront⟩ := hlinked.eq_append_of_null hblock hnext
  have hsame : s.node = v.node := htaken.node_eq
  have hnode' : (recount s rest).node id = some nd := hsame ▸ hnode
  refine h.redraw (htaken.extend hnode' hfront ?_ rfl fun _ => rfl) rfl fun i hi => ?_
  · rw [head_of_regular hkind, head_of_regular (by exact hkind), if_neg hpos, if_neg (by simp)]
  · exact (update_of_ne hi _ _).trans (congrFun hsame i)

theorem Writing.Sound.nextBlock (h : w.Sound id) (hnext : w.nextBlock id a = .inl w' ∨ w.nextBlock id a = .inr w') :
    w'.Sound id := by
  obtain ⟨free, cells, hvol, hnode, hkind, hblock⟩ := h
  rw [Writing.nextBlock] at hnext
  by_cases hzero : w.vol.next w.block = 0
  · rw [if_neg (not_not.mpr hzero)] at hnext
    split at hnext
    · obtain rfl := by simpa using hnext
      exact ⟨free, cells, hvol, hnode, hkind, hblock⟩
    · rename_i new tail s hget
      obtain rfl := by simpa using hnext
      obtain ⟨rest, htaken, -⟩ := hvol.getBlock_one hget
      have hadd := hvol.addBlock hnode hkind hblock hzero htaken
      refine ⟨rest, _, hadd, update_self _ _ _, hkind, ?_⟩
      rw [update_self]
      exact List.mem_append_right _ (List.mem_singleton_self new)
  · rw [if_pos hzero] at hnext
    obtain rfl := by simpa using hnext
    obtain ⟨-, hlinked⟩ := hvol.linked hnode hkind (hvol.nrBlock_ne_zero hnode hkind hblock)
    exact ⟨free, cells, hvol, hnode, hkind, hlinked.next_mem hblock hzero⟩

theorem Writing.Sound.round (h : w.Sound id) (hround : w.round id stop a = .inl w' ∨ w.round id stop a = .inr w') :
    w'.Sound id := by
  rw [Writing.round] at hround
  split_ifs at hround
  · obtain rfl := by simpa using hround
    exact h
  · exact h.nextBlock hround
  · obtain rfl := by simpa using hround
    exact h.fillBlock _
  · exact (h.fillBlock _).nextBlock hround

theorem Writing.Sound.rounds {left : ℕ} (h : w.Sound id) : (w.rounds id stop a left).Sound id := by
  induction left generalizing w with
  | zero => exact h
  | succ left ih =>
    rw [Writing.rounds]
    cases hround : w.round id stop a with
    | inl w' => exact h.round (.inl hround)
    | inr w' => exact ih (h.round (.inr hround))

theorem Writing.Sound.finish (h : w.Sound id) : ∃ free cells, Coherent (w.finish id).2.2 free cells := by
  obtain ⟨free, cells, hvol, -⟩ := h
  refine ⟨free, cells, ?_⟩
  rw [Writing.finish]
  split <;> exact hvol.congr rfl rfl

/-- A write of a file that has blocks gets to the block of its first byte or to the last one before it. -/
theorem Coherent.enterFrom (h : Coherent v free cells) (hnode : v.node id = some nd) (hkind : nd.kind = .regular)
    (hpos : nd.nrBlock ≠ 0) (a : Calls) (start pos : ℕ) (buf : List Byte) :
    (∃ map k block, Coherent (v.setMap id map) free cells ∧ (cells id)[k]? = some block ∧
        k = min (start / maxUsed) ((cells id).length - 1) ∧
        Maps.enterFrom v id nd a start pos buf =
          (.ok (.mk (v.setMap id map) nd block (start / maxUsed - k) start buf pos 0 none), v.setMap id map)) ∨
      (∃ e, Maps.enterFrom v id nd a start pos buf = (.error e, v)) ∧ Blind v a .map id cells := by
  obtain ⟨hne, hlinked⟩ := h.linked hnode hkind hpos
  have hlength := h.length hnode hkind
  rw [Maps.enterFrom]
  generalize start / maxUsed = k
  split_ifs with hle
  · rcases h.nthBlock hnode hkind a .map (k + 1) with ⟨map, heq, h'⟩ | ⟨⟨e, heq⟩, hblind⟩
    · have hk : k < (cells id).length := by omega
      have hlookup := lookup_chain hlinked (Nat.le_add_left 1 k) hk
      rw [Nat.add_sub_cancel, ← Linked.getElem_iterate hlinked hk] at hlookup
      rw [heq, hlookup]
      dsimp only
      rw [if_neg (not_not.mpr rfl)]
      exact .inl ⟨map, k, _, h', List.getElem?_eq_getElem hk, by omega, by rw [Nat.sub_self]⟩
    · rw [heq]
      exact .inr ⟨⟨e, rfl⟩, hblind⟩
  · rcases h.nthBlock hnode hkind a .map 0 with ⟨map, heq, h'⟩ | ⟨⟨e, heq⟩, hblind⟩
    · obtain ⟨front, last, hlast, hlookup⟩ := lookup_last (hlinked.ne_nil hne)
      have hfront : front.length + 1 = (cells id).length := by rw [hlast, List.length_append, List.length_singleton]
      rw [heq, hlookup]
      dsimp only
      rw [if_neg (by omega)]
      refine .inl ⟨map, front.length, last, h', ?_, by omega, ?_⟩
      · rw [hlast, List.getElem?_append_right (Nat.le_refl _), Nat.sub_self]
        rfl
      · rw [← hfront, Nat.add_sub_add_right]
    · rw [heq]
      exact .inr ⟨⟨e, rfl⟩, hblind⟩

/-- A file without blocks gets its first one. It has no map. -/
theorem Coherent.firstBlock {new : ℕ} {rest : List ℕ} (h : Coherent v free cells) (hnode : v.node id = some nd)
    (hkind : nd.kind = .regular) (hzero : nd.nrBlock = 0)
    (htaken : Taken (recount v.toState free) cells 1 new new (recount s rest) [new] rest) :
    Coherent (v.withState (s.setNode id (some { nd with rdev := new, nrBlock := 1 }))) rest
      (update cells id [new]) := by
  have hsame : s.node = v.node := htaken.node_eq
  have hnone : v.map id = none := by
    by_contra hsome
    obtain ⟨map, hmap⟩ := Option.ne_none_iff_exists'.mp hsome
    obtain ⟨rfl, hnil, -⟩ := h.maps id map hmap
    exact hnil (List.eq_nil_of_length_eq_zero ((h.length hnode hkind).trans hzero))
  have hmap : v.map = update v.map id none := by rw [← hnone, update_eq_self]
  have hhead : ({ nd with rdev := new, nrBlock := 1 } : Node).head = some new :=
    (head_of_regular (by exact hkind)).trans (if_neg (by simp))
  refine h.redraw (htaken.setNode hhead fun _ => rfl) hmap fun i hi => ?_
  exact (update_of_ne hi _ _).trans (congrFun hsame i)

theorem Coherent.enter (h : Coherent v free cells) (hnode : v.node id = some nd) (hkind : nd.kind = .regular)
    (a : Calls) (start pos : ℕ) (buf : List Byte) :
    (∃ w : Writing, Maps.enter v id nd a start pos buf = (.ok w, w.vol) ∧ w.Sound id) ∨
      ∃ e u free' cells', Maps.enter v id nd a start pos buf = (.error e, u) ∧ Coherent u free' cells' := by
  rw [Maps.enter]
  by_cases hzero : nd.nrBlock = 0
  · rw [if_pos hzero]
    split
    · exact .inr ⟨_, v, free, cells, rfl, h⟩
    · rename_i block tail s hget
      obtain ⟨rest, htaken, -⟩ := h.getBlock_one hget
      have h' := h.firstBlock hnode hkind hzero htaken
      rcases h'.enterFrom (update_self _ _ _) hkind Nat.one_ne_zero a start pos buf with
        ⟨map, k, block, h'', hblock, -, heq⟩ | ⟨⟨e, heq⟩, -⟩
      · exact .inl ⟨_, heq, rest, _, h'', update_self _ _ _, hkind, List.mem_of_getElem? hblock⟩
      · exact .inr ⟨e, _, rest, _, heq, h'⟩
  · rw [if_neg hzero]
    rcases h.enterFrom hnode hkind hzero a start pos buf with ⟨map, k, block, h', hblock, -, heq⟩ | ⟨⟨e, heq⟩, -⟩
    · exact .inl ⟨_, heq, free, cells, h', hnode, hkind, List.mem_of_getElem? hblock⟩
    · exact .inr ⟨e, v, free, cells, heq, h⟩

theorem Coherent.fileWrite {append : Bool} {pos : ℕ} {buf : List Byte} (h : Coherent v free cells)
    (hnode : v.node id = some nd) (hkind : nd.kind = .regular) :
    ∃ free' cells', Coherent (Maps.fileWrite v id nd a append pos buf).2.2 free' cells' := by
  rw [Maps.fileWrite]
  generalize (if append then v.size id else pos % 2 ^ 32) = start
  rcases h.enter hnode hkind a start pos buf with
    ⟨w, heq, hw⟩ | ⟨e, u, free', cells', heq, h'⟩ <;> rw [heq]
  · exact hw.rounds.finish
  · exact ⟨free', cells', h'⟩

/-! ## Directories -/

theorem Coherent.dir_linked (h : Coherent v free cells) (hnode : v.node id = some nd) (hkind : nd.kind = .directory) :
    nd.rdev ≠ 0 ∧ Linked v.next 0 nd.rdev (cells id) := by
  have hhead : nd.head = some nd.rdev := by simp [Node.head, hkind]
  obtain ⟨hne, hlinked, -⟩ := Layout.of_head h.laid hnode hhead
  exact ⟨hne, hlinked⟩

theorem Coherent.extendDir (h : Coherent v free cells) (hnode : v.node id = some nd) (hkind : nd.kind = .directory) :
    ∃ free' cells', Coherent (Maps.extendDir v nd a) free' cells' := by
  obtain ⟨hne, hlinked⟩ := h.dir_linked hnode hkind
  rw [Maps.extendDir]
  split
  · exact ⟨free, cells, h⟩
  · rename_i i last hlast
    obtain ⟨front, hfront⟩ := chainNth_zero hlinked hne (Nat.le_refl 1) (h.length_le id) hlast
    split
    · exact ⟨free, cells, h⟩
    · rename_i block tail s hget
      obtain ⟨taken, rest, htaken, -, hsame⟩ := h.getBlock hget
      have hnode' : s.node id = some nd := hsame ▸ hnode
      have hlayout := htaken.extend (y := nd) hnode' hfront rfl rfl fun hreg => by
        rw [hkind] at hreg
        cases hreg
      have hkeep : (s.setNext last block).setNode id (some nd) = s.setNext last block := by
        simp only [State.setNode, State.setNext, ← hnode', update_eq_self]
      have hmap : v.map = update v.map id none := by
        rw [← h.map_eq_none hnode (by rw [hkind]; decide), update_eq_self]
      refine ⟨rest, _, h.redraw (l := cells id ++ taken) ?_ hmap fun i _ => congrFun hsame i⟩
      rw [← hkeep]
      exact hlayout

/-! ## Runs -/

/-- What happens to the inodes of a volume. -/
inductive Label
  /-- A page of a file or an entry of a directory is read, and a block is asked for. -/
  | read (id n : ℕ) (a : Calls)
  | write (id : ℕ) (append : Bool) (pos : ℕ) (buf : List Byte) (a : Calls)
  | truncate (id size : ℕ) (a : Calls)
  /-- A directory gets one more block. -/
  | extend (id : ℕ) (a : Calls)
  /-- `mario_clear_inode`. -/
  | clear (id : ℕ)

def exec (v : Volume) : Label → Option Volume
  | .read id n a => (v.node id).map fun nd => (nthBlock v id nd a .map n).2
  | .write id append pos buf a => (v.node id).map fun nd =>
      if nd.kind = .regular then (fileWrite v id nd a append pos buf).2.2 else v
  | .truncate id size a => (v.node id).map fun nd =>
      if nd.kind = .regular then truncate v id nd a size else v
  | .extend id a => (v.node id).map fun nd => if nd.kind = .directory then extendDir v nd a else v
  | .clear id => some (v.destroyMap id)

def Step (v : Volume) (lab : Label) (v' : Volume) : Prop := exec v lab = some v'

/-- There are chains, and the maps are theirs. -/
def Inv (v : Volume) : Prop := ∃ free cells, Coherent v free cells

theorem Inv.step {lab : Label} (h : Inv v) (hstep : Step v lab v') : Inv v' := by
  obtain ⟨free, cells, h⟩ := h
  cases lab with
  | read id n a =>
    obtain ⟨nd, hnode, rfl⟩ := Option.map_eq_some_iff.mp hstep
    by_cases hkind : nd.kind = .regular
    · obtain ⟨map, heq, h'⟩ := h.nthBlock_snd hnode hkind a .map n
      exact ⟨free, cells, by rw [heq]; exact h'⟩
    · refine ⟨free, cells, ?_⟩
      rw [Maps.nthBlock, if_pos hkind]
      exact h
  | write id append pos buf a =>
    obtain ⟨nd, hnode, rfl⟩ := Option.map_eq_some_iff.mp hstep
    split_ifs with hkind
    · exact h.fileWrite hnode hkind
    · exact ⟨free, cells, h⟩
  | truncate id size a =>
    obtain ⟨nd, hnode, rfl⟩ := Option.map_eq_some_iff.mp hstep
    split_ifs with hkind
    · exact h.truncate hnode hkind size
    · exact ⟨free, cells, h⟩
  | extend id a =>
    obtain ⟨nd, hnode, rfl⟩ := Option.map_eq_some_iff.mp hstep
    split_ifs with hkind
    · exact h.extendDir hnode hkind
    · exact ⟨free, cells, h⟩
  | clear id =>
    cases hstep
    exact ⟨free, cells, h.destroyMap id⟩

/-- The answer of `mario_nth_block` is the block behind so many links, or something that it needs is missing. -/
theorem Coherent.nthBlock_fst (h : Coherent v free cells) (hnode : v.node id = some nd)
    (hkind : nd.kind = .regular ∨ nd.kind = .directory) (a : Calls) (site : Site) (hpos : 1 ≤ n)
    (hn : n ≤ (cells id).length) :
    (Maps.nthBlock v id nd a site n).1 = .ok (n, v.next^[n - 1] nd.rdev) ∨
      (∃ e, (Maps.nthBlock v id nd a site n).1 = .error e) ∧ Blind v a site id cells := by
  rcases hkind with hkind | hkind
  · have hlinked := (h.linked hnode hkind (by rw [← h.length hnode hkind]; omega)).2
    rcases h.nthBlock hnode hkind a site n with ⟨map, heq, -⟩ | ⟨⟨e, heq⟩, hblind⟩
    · left
      rw [heq, lookup_chain hlinked hpos hn]
    · exact .inr ⟨⟨e, by rw [heq]⟩, hblind⟩
  · obtain ⟨hne, hlinked⟩ := h.dir_linked hnode hkind
    rw [Maps.nthBlock, if_pos (by rw [hkind]; decide), if_neg hne]
    rcases chainNth_eq hlinked hne hpos (by omega) (h.length_le id) with heq | ⟨herr, hread⟩
    · exact .inl heq
    · exact .inr ⟨herr, h.map_eq_none hnode (by rw [hkind]; decide), .inr hread⟩

/-- In every state a map is the chain of its file, with no block that is free or another inode's, and the block that is
answered is the one behind so many links. -/
theorem nthBlock_follows_chain {v₀ : Volume} {labels : List Label} (hlaid : ∃ free cells, Laid v₀.toState free cells)
    (hmap : ∀ id, v₀.map id = none) (hrun : Run Step v₀ labels v) :
    ∃ free cells, Laid v.toState free cells ∧
      (∀ id map, v.map id = some map →
        map = cells id ∧ ∀ b ∈ map, b ∉ free ∧ ∀ id' ≠ id, b ∉ cells id') ∧
      ∀ id nd, v.node id = some nd → nd.kind = .regular ∨ nd.kind = .directory →
        ∀ a site n, 1 ≤ n → n ≤ (cells id).length →
          (nthBlock v id nd a site n).1 = .ok (n, v.next^[n - 1] nd.rdev) ∨
            (∃ e, (nthBlock v id nd a site n).1 = .error e) ∧ Blind v a site id cells := by
  have hinit : Inv v₀ := by
    obtain ⟨free, cells, hlaid⟩ := hlaid
    exact ⟨free, cells, hlaid, fun id map hid => by rw [hmap id] at hid; cases hid⟩
  obtain ⟨free, cells, h⟩ : Inv v := hrun.invariant hinit fun hinv hstep => hinv.step hstep
  refine ⟨free, cells, h.laid, fun id map hid => ?_, fun id nd hnode hkind a site n hpos hn =>
    h.nthBlock_fst hnode hkind a site hpos hn⟩
  obtain ⟨rfl, -⟩ := h.maps id map hid
  exact ⟨rfl, fun b hb => ⟨fun hmem => h.laid.apart id hb hmem,
    fun id' hne hmem => h.laid.disjoint id' id hne hmem hb⟩⟩

/-- Everything can be read, and there is memory. -/
def sound : Calls where
  read _ _ := true
  memory _ := true

/-- A new filesystem with an empty file. -/
def created : Volume where
  toState := smallImage.setNode 1 (some { kind := .regular, rdev := marioZeroEntry, nrBlock := 0 })
  data _ _ := 0
  size _ := 0
  map _ := none

theorem created_laid : ∃ free cells, Laid created.toState free cells := by
  obtain ⟨free, cells, hlayout, -⟩ := smallImage_consistent
  refine ⟨free, _, laid_of_layout (hlayout.setNode_nil 1 _ fun nd hnd => ?_)⟩
  cases hnd
  rfl

/-- The file grows to two blocks and is read, loses one of them, gets another one and is read again. -/
def regrowth : List Label :=
  [.truncate 1 600 sound, .read 1 2 sound, .truncate 1 508 sound, .write 1 true 508 [0x61] sound, .read 1 2 sound]

/-- The volume after some steps. -/
def reached (labels : List Label) : Volume := labels.foldl (fun v lab => (exec v lab).getD v) created

theorem regrowth_run : Run Step created regrowth (reached regrowth) :=
  Run.cons rfl (Run.cons rfl (Run.cons rfl (Run.cons rfl (Run.cons rfl (Run.nil _)))))

theorem nthBlock_follows_chain_regrowth :
    (reached regrowth).map 1 = some [2, 3] ∧
      ∃ free cells, Laid (reached regrowth).toState free cells ∧
        (∀ id map, (reached regrowth).map id = some map →
          map = cells id ∧ ∀ b ∈ map, b ∉ free ∧ ∀ id' ≠ id, b ∉ cells id') ∧
        ∀ id nd, (reached regrowth).node id = some nd → nd.kind = .regular ∨ nd.kind = .directory →
          ∀ a site n, 1 ≤ n → n ≤ (cells id).length →
            (nthBlock (reached regrowth) id nd a site n).1 = .ok (n, (reached regrowth).next^[n - 1] nd.rdev) ∨
              (∃ e, (nthBlock (reached regrowth) id nd a site n).1 = .error e) ∧
                Blind (reached regrowth) a site id cells :=
  ⟨by decide +kernel, nthBlock_follows_chain created_laid (fun _ => rfl) regrowth_run⟩

end Mario.Fs.Mariofs.Maps
