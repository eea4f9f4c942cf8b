import Mario.Fs.Mariofs.Blocks

/-!
# The chains of a MarioFS in a run

As long as no block is given back, the free count is the length of the free chain, and the free chain
and the chains of the live inodes share no block.
-/

namespace Mario.Fs.Mariofs

open Mario.Lib Function

variable {s s' : State} {free : List ℕ} {cells : ℕ → List ℕ} {a : Answers} {id nr head tail : ℕ}
  {nd nd' : Node} {next next' : ℕ → ℕ} {l l' : List ℕ} {read : ℕ → Bool}

/-! ## Chains of blocks -/

theorem Chain.congr (h : Chain next nd l) (hnext : ∀ b ∈ l, next' b = next b) : Chain next' nd l := by
  unfold Chain at h ⊢
  cases hhead : nd.head with
  | none => rwa [hhead] at h
  | some b =>
    rw [hhead] at h
    exact ⟨h.1, h.2.1.congr hnext, h.2.2⟩

theorem Chain.zero_not_mem (h : Chain next nd l) : 0 ∉ l := by
  unfold Chain at h
  cases hhead : nd.head with
  | none =>
    rw [hhead] at h
    obtain rfl : l = [] := h
    exact List.not_mem_nil
  | some b =>
    rw [hhead] at h
    exact h.2.1.null_not_mem

theorem Chain.nodup (h : Chain next nd l) : l.Nodup := by
  unfold Chain at h
  cases hhead : nd.head with
  | none =>
    rw [hhead] at h
    obtain rfl : l = [] := h
    exact List.nodup_nil
  | some b =>
    rw [hhead] at h
    exact h.2.1.nodup

theorem Layout.nodup (h : Layout s free cells) (id : ℕ) : (cells id).Nodup := by
  cases hnode : s.node id with
  | none =>
    rw [h.gone id hnode]
    exact List.nodup_nil
  | some nd => exact (h.node id nd hnode).nodup

theorem takeBlocks_some {j k rest : ℕ} (h : Linked next 0 j l) (htake : takeBlocks read next nr j = some (k, rest)) :
    ∃ l₁ l₂, l = l₁ ++ [k] ++ l₂ ∧ (l₁ ++ [k]).length = nr := by
  induction nr generalizing j l with
  | zero => cases htake
  | succ nr ih =>
    rw [takeBlocks] at htake
    split_ifs at htake with hj hnr
    · obtain ⟨l', rfl, hrest⟩ := h.exists_cons hj.1
      cases htake
      exact ⟨[], l', rfl, by simp [hnr]⟩
    · obtain ⟨l', rfl, hrest⟩ := h.exists_cons hj.1
      obtain ⟨l₁, l₂, rfl, hlength⟩ := ih hrest htake
      exact ⟨j :: l₁, l₂, rfl, by simp only [List.cons_append, List.length_cons, hlength]⟩

theorem takeBlocks_rest {j k rest : ℕ} (htake : takeBlocks read next nr j = some (k, rest)) : rest = next k := by
  induction nr generalizing j with
  | zero => cases htake
  | succ nr ih =>
    rw [takeBlocks] at htake
    split_ifs at htake with hj hnr
    · cases htake
      rfl
    · exact ih htake

theorem takeBlocks_isSome {g : ℕ → Bool} {j : ℕ} (h : Linked next 0 j l) (hread : ∀ b, g b = true)
    (hpos : 1 ≤ nr) (hle : nr ≤ l.length) : (takeBlocks g next nr j).isSome := by
  induction nr generalizing j l with
  | zero => omega
  | succ nr ih =>
    cases l with
    | nil => simp at hle
    | cons b l =>
      obtain ⟨rfl, hne, hrest⟩ := h
      rw [takeBlocks, if_pos ⟨hne, hread j⟩]
      split_ifs with hnr
      · rfl
      · exact ih hrest (by omega) (by simpa using hle)

/-- A request takes the front of the free chain. -/
structure Taken (s : State) (cells : ℕ → List ℕ) (nr head tail : ℕ) (s' : State)
    (taken rest : List ℕ) : Prop extends Layout s' rest cells where
  length : taken.length = nr
  mem : tail ∈ taken
  node_eq : s'.node = s.node
  nrBlocks_eq : s'.nrBlocks = s.nrBlocks
  next_eq : s'.next = update s.next tail 0
  taken_linked : Linked s'.next 0 head taken
  head_ne : head ≠ 0
  taken_inside : ∀ b ∈ taken, b < s'.nrBlocks
  taken_rest : taken.Disjoint rest
  taken_cells : ∀ id, (cells id).Disjoint taken

theorem getBlock_nrFree (hget : s.getBlock read nr = .ok (head, tail, s')) :
    nr ≤ s.nrFree ∧ s'.nrFree = s.nrFree - nr := by
  rw [State.getBlock] at hget
  by_cases hzero : nr = 0
  · rw [if_pos hzero] at hget
    cases hget
  · rw [if_neg hzero] at hget
    by_cases hspace : s.nrFree < nr
    · rw [if_pos hspace] at hget
      cases hget
    · rw [if_neg hspace] at hget
      cases htake : takeBlocks read s.next nr s.free with
      | none =>
        rw [htake] at hget
        cases hget
      | some r =>
        rw [htake] at hget
        obtain ⟨-, -, rfl⟩ := (by simpa using hget : s.free = head ∧ r.1 = tail ∧ _ = s')
        exact ⟨Nat.not_lt.mp hspace, rfl⟩

theorem Layout.getBlock (h : Layout s free cells) (hget : s.getBlock read nr = .ok (head, tail, s')) :
    ∃ taken rest, Taken s cells nr head tail s' taken rest := by
  rw [State.getBlock] at hget
  split_ifs at hget with hzero hspace
  split at hget
  · cases hget
  · rename_i k rest htake
    obtain ⟨rfl, rfl, rfl⟩ := (by simpa using hget : s.free = head ∧ k = tail ∧ _ = s')
    obtain ⟨l₁, l₂, rfl, hlength⟩ := takeBlocks_some h.linked htake
    obtain rfl := takeBlocks_rest htake
    obtain ⟨q, hleads, hrest⟩ := h.linked.suffix
    obtain ⟨htaken, -, hne⟩ := List.nodup_append.mp h.linked.nodup
    have hk₁ : k ∉ l₁ := fun hmem => (List.nodup_append.mp htaken).2.2 k hmem k (by simp) rfl
    have hk₂ : k ∉ l₂ := fun hmem => hne k (by simp) k hmem rfl
    have hq : q = s.next k := by
      obtain ⟨b, -, rfl, hb⟩ := hleads.split
      exact hb.symm
    subst hq
    have hfree : s.free ≠ 0 := by
      intro hfree
      have heq := h.linked
      rw [hfree] at heq
      have := heq.eq_nil
      simp at this
    have hapart : ∀ id, (cells id).Disjoint (l₁ ++ [k]) := fun id b hb hmem =>
      h.apart id hb (List.mem_append_left _ hmem)
    refine ⟨l₁ ++ [k], l₂, ⟨?_, ?_, fun id nd hnode => ?_, h.gone, h.inside, fun b hb => ?_,
      fun id b hb hmem => ?_, h.disjoint⟩, hlength, by simp, rfl, rfl, rfl, ?_, hfree, fun b hb => ?_,
      fun b hb hmem => hne b hb b hmem rfl, hapart⟩
    · refine hrest.congr fun b hb => update_of_ne ?_ _ _
      rintro rfl
      exact hk₂ hb
    · have hcount := h.count
      simp only [List.length_append] at hcount hlength
      dsimp only
      omega
    · refine (h.node id nd hnode).congr fun b hb => update_of_ne ?_ _ _
      rintro rfl
      exact hapart id hb (by simp)
    · exact h.inside' b (List.mem_append_right _ hb)
    · exact h.apart id hb (List.mem_append_right _ hmem)
    · have hnull : 0 ∉ l₁ ++ [k] := fun hmem => h.linked.null_not_mem (List.mem_append_left _ hmem)
      have hlinked := (hleads.redirect hk₁ 0).linked hnull (show Linked _ 0 0 [] from rfl)
      rwa [List.append_nil] at hlinked
    · exact h.inside' b (List.mem_append_left _ hb)

/-- One inode changes, with blocks of its own and blocks that belong to nothing. -/
theorem Layout.change {g : ℕ → ℕ} (h : Layout s free cells) {w : List ℕ} {node' : Option Node}
    (hinside : ∀ b ∈ w, b < s.nrBlocks) (hfree : w.Disjoint free) (hcells : ∀ i, (cells i).Disjoint w)
    (hs : s' = { s with next := g, node := update s.node id node' })
    (hnext : ∀ b, b ∉ cells id → b ∉ w → g b = s.next b)
    (hchain : ∀ nd, node' = some nd → Chain g nd l) (hgone : node' = none → l = [])
    (hsub : ∀ b ∈ l, b ∈ cells id ∨ b ∈ w) : Layout s' free (update cells id l) := by
  subst hs
  have hl : ∀ i ≠ id, ∀ b ∈ cells i, b ∉ l := by
    intro i hi b hb hmem
    rcases hsub b hmem with hid | htaken
    · exact h.disjoint i id hi hb hid
    · exact hcells i hb htaken
  have hlfree : l.Disjoint free := by
    intro b hb hmem
    rcases hsub b hb with hid | htaken
    · exact h.apart id hid hmem
    · exact hfree htaken hmem
  refine ⟨?_, h.count, fun i nd hnode => ?_, fun i hnode => ?_, fun i b hb => ?_, h.inside',
    fun i => ?_, fun i j hij => ?_⟩
  · refine h.linked.congr fun b hb => hnext b (fun hmem => h.apart id hmem hb) fun hmem => ?_
    exact hfree hmem hb
  · by_cases hi : i = id
    · subst hi
      simp only [update_self] at hnode ⊢
      exact hchain nd hnode
    · simp only [update_of_ne hi] at hnode ⊢
      refine (h.node i nd hnode).congr fun b hb => hnext b (h.disjoint i id hi hb) ?_
      exact fun hmem => hcells i hb hmem
  · by_cases hi : i = id
    · subst hi
      simp only [update_self] at hnode ⊢
      exact hgone hnode
    · simp only [update_of_ne hi] at hnode ⊢
      exact h.gone i hnode
  · by_cases hi : i = id
    · subst hi
      rw [update_self] at hb
      exact (hsub b hb).elim (h.inside i b) (hinside b)
    · rw [update_of_ne hi] at hb
      exact h.inside i b hb
  · by_cases hi : i = id
    · subst hi
      rwa [update_self]
    · rw [update_of_ne hi]
      exact h.apart i
  · by_cases hi : i = id
    · subst hi
      rw [update_self, update_of_ne (Ne.symm hij)]
      exact fun b hb hmem => hl j (Ne.symm hij) b hmem hb
    · rw [update_of_ne hi]
      by_cases hj : j = id
      · subst hj
        rw [update_self]
        exact fun b hb hmem => hl i hi b hb hmem
      · rw [update_of_ne hj]
        exact h.disjoint i j hij

theorem Layout.setNode_nil (h : Layout s free cells) (id : ℕ) (node' : Option Node)
    (hhead : ∀ nd, node' = some nd → nd.head = none) : Layout (s.setNode id node') free (update cells id []) := by
  refine h.change (w := []) (g := s.next) (by simp) (by simp) (fun _ => by simp) rfl
    (fun _ _ _ => rfl) (fun nd hnd => ?_) (fun _ => rfl) (by simp)
  rw [Chain, hhead nd hnd]

/-- The blocks that a request got become the chain of an inode. -/
theorem Taken.setNode {taken rest : List ℕ} (h : Taken s cells nr head tail s' taken rest)
    (hhead : nd.head = some head) (hlength : nd.kind = .regular → nd.nrBlock = nr) :
    Layout (s'.setNode id (some nd)) rest (update cells id taken) := by
  refine h.change (w := taken) (g := s'.next) h.taken_inside h.taken_rest h.taken_cells rfl
    (fun _ _ _ => rfl) (fun nd' hnd' => ?_) (fun hnone => by cases hnone) (fun b hb => .inr hb)
  cases hnd'
  rw [Chain, hhead]
  exact ⟨h.head_ne, h.taken_linked, fun hreg => by rw [h.length, hlength hreg]⟩

/-- The blocks that a request got are put behind the chain of an inode. -/
theorem Taken.extend {y : Node} {taken rest : List ℕ} (h : Taken s cells nr head tail s' taken rest)
    {last : ℕ} {front : List ℕ} (hnode : s'.node id = some nd) (hlast : cells id = front ++ [last])
    (hhead : y.head = nd.head) (hkind : y.kind = nd.kind) (hlength : nd.kind = .regular → y.nrBlock = nd.nrBlock + nr) :
    Layout ((s'.setNext last head).setNode id (some y)) rest (update cells id (cells id ++ taken)) := by
  have hold := h.node id nd hnode
  have hnodup := h.nodup id
  rw [hlast] at hnodup
  have hfront : last ∉ front := fun hmem =>
    (List.nodup_append.mp hnodup).2.2 last hmem last (by simp) rfl
  have hne : ∀ b ∈ taken, b ≠ last := by
    rintro b hb rfl
    exact h.taken_cells id (by rw [hlast]; simp) hb
  refine h.change (w := taken) (g := update s'.next last head) h.taken_inside
    h.taken_rest h.taken_cells rfl (fun b hb _ => update_of_ne ?_ _ _)
    (fun nd'' hnd'' => ?_) (fun hnone => by cases hnone) (fun b hb => List.mem_append.mp hb)
  · rintro rfl
    exact hb (by rw [hlast]; simp)
  · cases hnd''
    rw [Chain] at hold ⊢
    rw [hhead]
    cases hfirst : nd.head with
    | none =>
      rw [hfirst, hlast] at hold
      simp at hold
    | some b =>
      rw [hfirst] at hold
      obtain ⟨hb, hchain, hcount⟩ := hold
      refine ⟨hb, ?_, fun hreg => ?_⟩
      · have hnull := hchain.null_not_mem
        rw [hlast] at hchain hnull ⊢
        exact (hchain.leads.redirect hfront head).linked hnull
          (h.taken_linked.congr fun c hc => update_of_ne (hne c hc) _ _)
      · rw [hkind] at hreg
        rw [List.length_append, hcount hreg, h.length, hlength hreg]

/-! ## The last block -/

theorem blockMap_eq {b : ℕ} (h : Linked next 0 b l) (hb : b ≠ 0) : blockMap next l.length b = l := by
  induction l generalizing b with
  | nil => exact absurd h hb
  | cons c l ih =>
    obtain ⟨rfl, -, hrest⟩ := h
    rw [List.length_cons, blockMap]
    split_ifs with hnext
    · rw [hnext] at hrest
      rw [hrest.eq_nil]
    · rw [ih hrest hnext]

theorem chainLast_eq {b fuel : ℕ} (h : Linked next 0 b l) (hb : b ≠ 0) (hfuel : l.length ≤ fuel + 1) :
    ∃ front, l = front ++ [chainLast next fuel b] := by
  induction fuel generalizing b l with
  | zero =>
    obtain ⟨l', rfl, -⟩ := h.exists_cons hb
    obtain rfl : l' = [] := List.eq_nil_of_length_eq_zero (by simpa using hfuel)
    exact ⟨[], rfl⟩
  | succ fuel ih =>
    obtain ⟨l', rfl, hrest⟩ := h.exists_cons hb
    rw [chainLast]
    split_ifs with hnext
    · rw [hnext] at hrest
      rw [hrest.eq_nil]
      exact ⟨[], rfl⟩
    · obtain ⟨front, hfront⟩ := ih hrest hnext (by simpa using hfuel)
      exact ⟨b :: front, by rw [List.cons_append, ← hfront]⟩

/-- `mario_nth_block` finds the last block of an inode that has blocks. -/
theorem Layout.lastBlock (h : Layout s free cells) (hnode : s.node id = some nd)
    (hhead : nd.head ≠ none) : ∃ front, cells id = front ++ [s.lastBlock nd] := by
  have hchain := h.node id nd hnode
  obtain ⟨b, hb⟩ := Option.ne_none_iff_exists'.mp hhead
  rw [Chain, hb] at hchain
  obtain ⟨hne, hlinked, hcount⟩ := hchain
  have hrdev : b = nd.rdev := by
    simp only [Node.head] at hb
    split at hb
    · cases hb
    · exact (Option.some.inj hb).symm
    all_goals
      split_ifs at hb
      exact (Option.some.inj hb).symm
  subst hrdev
  rw [State.lastBlock]
  split_ifs with hreg
  · have hnil := hlinked.ne_nil hne
    rw [← hcount hreg, blockMap_eq hlinked hne, List.getLastD_eq_getLast?]
    rw [List.getLast?_eq_some_getLast hnil]
    exact ⟨_, (List.dropLast_append_getLast hnil).symm⟩
  · refine chainLast_eq hlinked hne ?_
    have := length_le_of_nodup (h.nodup id) (h.inside id)
    omega

/-- There are chains. -/
def Inv (s : State) : Prop := ∃ free cells, Layout s free cells

/-! ## The operations -/

theorem Inv.getBlock (h : Inv s) (hget : s.getBlock read nr = .ok (head, tail, s')) : Inv s' := by
  obtain ⟨free, cells, h⟩ := h
  obtain ⟨taken, rest, htaken⟩ := h.getBlock hget
  exact ⟨rest, cells, htaken.toLayout⟩

theorem Inv.setNode_nil (h : Inv s) (id : ℕ) (node' : Option Node)
    (hhead : ∀ nd, node' = some nd → nd.head = none) : Inv (s.setNode id node') := by
  obtain ⟨free, cells, h⟩ := h
  exact ⟨free, _, h.setNode_nil id node' hhead⟩

theorem Layout.of_head (h : Layout s free cells) (hnode : s.node id = some nd) {b : ℕ} (hhead : nd.head = some b) :
    b ≠ 0 ∧ Linked s.next 0 b (cells id) ∧ (nd.kind = .regular → (cells id).length = nd.nrBlock) := by
  have hchain := h.node id nd hnode
  rwa [Chain, hhead] at hchain

theorem Layout.head_of_mem (h : Layout s free cells) (hnode : s.node id = some nd) {b : ℕ}
    (hb : b ∈ cells id) : ∃ c, nd.head = some c := by
  have hchain := h.node id nd hnode
  cases hhead : nd.head with
  | none =>
    rw [Chain, hhead] at hchain
    have hnil : cells id = [] := hchain
    rw [hnil] at hb
    cases hb
  | some c => exact ⟨c, rfl⟩

theorem head_of_regular (hkind : nd.kind = .regular) : nd.head = if nd.nrBlock = 0 then none else some nd.rdev := by
  simp [Node.head, hkind]

theorem Layout.addBlock (h : Layout s free cells) (hnode : s.node id = some nd) {block new : ℕ}
    (hblock : block ∈ cells id) (hkind : nd.kind = .regular) (hnext : s.next block = 0)
    (hget : s.getBlock read 1 = .ok (new, tail, s')) :
    ∃ rest cells', Layout ((s'.setNext block new).setNode id (some { nd with nrBlock := nd.nrBlock + 1 }))
      rest cells' ∧ new ∈ cells' id := by
  obtain ⟨c, hc⟩ := h.head_of_mem hnode hblock
  obtain ⟨-, hlinked, -⟩ := h.of_head hnode hc
  obtain ⟨front, hfront⟩ := hlinked.eq_append_of_null hblock hnext
  obtain ⟨taken, rest, htaken⟩ := h.getBlock hget
  have hpos : nd.nrBlock ≠ 0 := by
    rw [head_of_regular hkind] at hc
    intro hzero
    rw [if_pos hzero] at hc
    cases hc
  have hnode' : s'.node id = some nd := htaken.node_eq ▸ hnode
  refine ⟨rest, _, htaken.extend hnode' hfront ?_ rfl fun _ => rfl, ?_⟩
  · rw [head_of_regular hkind, head_of_regular (by exact hkind), if_neg hpos, if_neg (by simp)]
  · rw [update_self]
    exact List.mem_append_right _ (htaken.taken_linked.head_mem htaken.head_ne)

theorem Layout.writeBlocks {stop fuel block start : ℕ} (h : Layout s free cells)
    (hnode : s.node id = some nd) (hkind : nd.kind = .regular) (hblock : block ∈ cells id) :
    Inv (writeBlocks a id stop fuel s nd block nr start) := by
  induction fuel generalizing s free cells nd block nr start with
  | zero => exact ⟨free, cells, h⟩
  | succ fuel ih =>
    rw [Mariofs.writeBlocks]
    dsimp only
    generalize (if nr = 0 then start + min (maxUsed - start % maxUsed) (stop - start) else start) =
      start'
    by_cases hend : a.read block = false ∨ nr = 0 ∧ start' = stop
    · rw [if_pos hend]
      exact ⟨free, cells, h⟩
    · rw [if_neg hend]
      by_cases hnext : s.next block = 0
      · rw [if_neg (not_not.mpr hnext)]
        split
        · exact ⟨free, cells, h⟩
        · rename_i new tail s' hget
          obtain ⟨rest, cells', hlayout, hmem⟩ := h.addBlock hnode hblock hkind hnext hget
          exact ih hlayout (by simp [State.setNode]) hkind hmem
      · rw [if_pos hnext]
        obtain ⟨c, hc⟩ := h.head_of_mem hnode hblock
        exact ih h hnode hkind ((h.of_head hnode hc).2.1.next_mem hblock hnext)

theorem Layout.writeFrom {start count : ℕ} (h : Layout s free cells) (hnode : s.node id = some nd)
    (hkind : nd.kind = .regular) (hpos : nd.nrBlock ≠ 0) : Inv (s.writeFrom a id nd start count) := by
  have hhead : nd.head = some nd.rdev := by rw [head_of_regular hkind, if_neg hpos]
  obtain ⟨hne, hlinked, hcount⟩ := h.of_head hnode hhead
  have hmap : blockMap s.next nd.nrBlock nd.rdev = cells id := by
    rw [← hcount hkind, blockMap_eq hlinked hne]
  rw [State.writeFrom, hmap]
  split_ifs
  · split
    · rename_i block hblock
      exact h.writeBlocks hnode hkind (List.mem_of_getElem? hblock)
    · exact ⟨free, cells, h⟩
  · refine h.writeBlocks hnode hkind ?_
    have hnil := hlinked.ne_nil hne
    rw [List.getLastD_eq_getLast?, List.getLast?_eq_some_getLast hnil]
    exact List.getLast_mem hnil
  · exact ⟨free, cells, h⟩

theorem Inv.write {start count : ℕ} (h : Inv s) (hnode : s.node id = some nd)
    (hkind : nd.kind = .regular) : Inv (s.write a id nd start count) := by
  obtain ⟨free, cells, h⟩ := h
  rw [State.write]
  split_ifs with hzero
  · split
    · exact ⟨free, cells, h⟩
    · rename_i block tail s' hget
      obtain ⟨taken, rest, htaken⟩ := h.getBlock hget
      refine Layout.writeFrom (htaken.setNode ?_ fun _ => rfl) (by simp [State.setNode]) hkind
        (by simp)
      exact (head_of_regular (by exact hkind)).trans (if_neg (by simp))
  · exact h.writeFrom hnode hkind hzero

theorem Inv.truncate {size : ℕ} (h : Inv s) (hnode : s.node id = some nd) (hkind : nd.kind = .regular)
    (hgrow : nd.nrBlock ≤ (size + maxUsed - 1) / maxUsed)
    (hread : nd.nrBlock < (size + maxUsed - 1) / maxUsed → 0 < nd.nrBlock → a.map = true →
      a.read (s.lastBlock nd) = true) : Inv (s.truncate a id nd size) := by
  obtain ⟨free, cells, h⟩ := h
  rw [State.truncate]
  dsimp only
  generalize (size + maxUsed - 1) / maxUsed = n at hgrow hread ⊢
  by_cases hlt : nd.nrBlock < n
  · rw [if_pos hlt]
    split
    · exact ⟨free, cells, h⟩
    · rename_i head tail s' hget
      obtain ⟨taken, rest, htaken⟩ := h.getBlock hget
      by_cases hzero : nd.nrBlock = 0
      · rw [if_pos hzero]
        refine ⟨rest, _, htaken.setNode ?_ fun _ => ?_⟩
        · exact (head_of_regular (by exact hkind)).trans (if_neg (by dsimp only; omega))
        · dsimp only; omega
      · rw [if_neg hzero]
        have hhead : nd.head = some nd.rdev := by rw [head_of_regular hkind, if_neg hzero]
        have hsome : nd.head ≠ none := by rw [hhead]; exact Option.some_ne_none _
        have hnode' : s'.node id = some nd := htaken.node_eq ▸ hnode
        obtain ⟨front, hfront⟩ := htaken.lastBlock hnode' hsome
        obtain ⟨front', hfront'⟩ := h.lastBlock hnode hsome
        have hlast : s'.lastBlock nd = s.lastBlock nd := by
          have heq := List.append_inj' (hfront.symm.trans hfront') rfl
          exact List.singleton_injective heq.2
        split_ifs with hmap hr
        · refine ⟨rest, _, htaken.extend hnode' hfront ?_ rfl fun _ => ?_⟩
          · rw [hhead]
            exact (head_of_regular (by exact hkind)).trans (if_neg (by dsimp only; omega))
          · dsimp only; omega
        · rw [hlast] at hr
          exact absurd (hread hlt (Nat.pos_of_ne_zero hzero) hmap) hr
        · exact ⟨rest, cells, htaken.toLayout⟩
  · rw [if_neg hlt, if_neg (by omega)]
    exact ⟨free, cells, h⟩

/-! ## Directories -/

theorem dir_some {dir : ℕ} (h : s.dir dir = some nd) : s.node dir = some nd ∧ nd.head = some nd.rdev := by
  obtain ⟨hnode, hkind⟩ := Option.filter_eq_some_iff.mp h
  have hdir : nd.kind = .directory := by simpa using hkind
  exact ⟨hnode, by simp [Node.head, hdir]⟩

theorem Inv.addEntry {dir : ℕ} (h : Inv s) (hdir : s.dir dir = some nd) :
    Inv (s.addEntry a nd).2 ∧ (s.addEntry a nd).2.node = s.node := by
  obtain ⟨free, cells, h⟩ := h
  obtain ⟨hnode, hhead⟩ := dir_some hdir
  rw [State.addEntry]
  split_ifs
  · exact ⟨⟨free, cells, h⟩, rfl⟩
  · split
    · exact ⟨⟨free, cells, h⟩, rfl⟩
    · rename_i block tail s' hget
      obtain ⟨taken, rest, htaken⟩ := h.getBlock hget
      obtain ⟨front, hfront⟩ := h.lastBlock hnode (by rw [hhead]; exact Option.some_ne_none _)
      have hnode' : s'.node dir = some nd := htaken.node_eq ▸ hnode
      have hkind : nd.kind = .directory := by
        have := (Option.filter_eq_some_iff.mp hdir).2
        simpa using this
      have hlayout := htaken.extend hnode' hfront (y := nd) rfl rfl fun hreg => by
        rw [hkind] at hreg
        cases hreg
      have hsame : (s'.setNext (s.lastBlock nd) block).setNode dir (some nd) =
          s'.setNext (s.lastBlock nd) block := by
        simp only [State.setNode, State.setNext, ← hnode', update_eq_self]
      rw [hsame] at hlayout
      exact ⟨⟨rest, _, hlayout⟩, htaken.node_eq⟩
  · exact ⟨⟨free, cells, h⟩, rfl⟩

theorem getBlock_setNode (s : State) (read : ℕ → Bool) (nr id : ℕ) (node' : Option Node) :
    (s.setNode id node').getBlock read nr = (s.getBlock read nr).map fun r => (r.1, r.2.1, r.2.2.setNode id node') := by
  rw [State.getBlock, State.getBlock]
  by_cases hzero : nr = 0
  · rw [if_pos hzero, if_pos hzero]
    rfl
  · rw [if_neg hzero, if_neg hzero]
    by_cases hspace : s.nrFree < nr
    · rw [if_pos hspace, if_pos (show (s.setNode id node').nrFree < nr from hspace)]
      rfl
    · rw [if_neg hspace, if_neg (show ¬ (s.setNode id node').nrFree < nr from hspace)]
      rw [show (s.setNode id node').next = s.next from rfl, show (s.setNode id node').free = s.free from rfl]
      cases takeBlocks read s.next nr s.free with
      | none => rfl
      | some r => rfl

/-- An inode that comes later does not matter for the growth of a directory. -/
theorem addEntry_setNode (s : State) (a : Answers) (id : ℕ) (node' : Option Node) (dir : Node) :
    (s.setNode id node').addEntry a dir = ((s.addEntry a dir).1, (s.addEntry a dir).2.setNode id node') := by
  simp only [State.addEntry, getBlock_setNode]
  split_ifs
  · rfl
  · cases hget : s.getBlock a.read 1 with
    | error e => rfl
    | ok r => rfl
  · rfl

theorem Layout.addEntry_fst (h : Layout s free cells) (hread : ∀ b, a.read b = true)
    (hmap : a.map = true) (hspace : a.full = true → 1 ≤ s.nrFree) (dir : Node) : (s.addEntry a dir).1 = true := by
  rw [State.addEntry]
  by_cases hfull : a.full = true
  · have hpos := hspace hfull
    have htake := takeBlocks_isSome h.linked hread (Nat.le_refl 1) (by rw [← h.count]; exact hpos)
    obtain ⟨r, hr⟩ := Option.isSome_iff_exists.mp htake
    simp [hmap, hfull, State.getBlock, hr, hread, Nat.not_lt.mpr hpos]
  · simp [hmap, hfull]

theorem delEntry_of_not_gives {k : ℕ} (h : ¬ s.Gives a nd) :
    s.delEntry a k nd = .ok (s.setNode k none) ∨ s.delEntry a k nd = .error .eio := by
  rw [State.delEntry]
  split_ifs with hnone hmap
  · exact .inl rfl
  · right
    have hread : a.read (s.lastBlock nd) = false := by
      simpa using fun hread => h ⟨hnone, hmap, hread⟩
    simp [State.putBlock, hread]
    rfl
  · exact .inr rfl

theorem Inv.delEntry (h : Inv s) (hgives : ¬ s.Gives a nd) : Inv ((s.delEntry a id nd).toOption.getD s) := by
  rcases delEntry_of_not_gives (k := id) hgives with heq | heq
  · rw [heq]
    exact h.setNode_nil id none fun _ hnone => by cases hnone
  · rw [heq]
    exact h

/-! ## Steps -/

theorem Inv.mkdir {dir : ℕ} (h : Inv s) (hgood : Good s (.mkdir dir id a))
    (hstep : exec s (.mkdir dir id a) = some s') : Inv s' := by
  rw [exec] at hstep
  split at hstep
  · rename_i dirNode hdir hnode
    by_cases hfound : a.found = true
    · rw [if_pos hfound] at hstep
      cases hstep
      exact h
    · rw [if_neg hfound] at hstep
      obtain ⟨hread, hmap, hspace⟩ := hgood (by simpa using hfound)
      split at hstep
      · cases hstep
        exact h
      · rename_i block tail s₁ hget
        obtain ⟨free, cells, h⟩ := h
        obtain ⟨taken, rest, htaken⟩ := h.getBlock hget
        have hcount := getBlock_nrFree hget
        have hfst : (s₁.addEntry a dirNode).1 = true :=
          htaken.toLayout.addEntry_fst hread hmap (fun hfull => by have := hspace hfull; omega) dirNode
        rw [if_pos (hread block)] at hstep
        dsimp only at hstep
        rw [if_pos hfst] at hstep
        cases hstep
        have hinv : Inv (s₁.setNode id (some { kind := .directory, rdev := block, nrBlock := 0 })) :=
          ⟨rest, _, htaken.setNode rfl fun hreg => by cases hreg⟩
        have hne : dir ≠ id := by
          rintro rfl
          rw [(dir_some hdir).1] at hnode
          cases hnode
        have hdir' : (s₁.setNode id (some { kind := .directory, rdev := block, nrBlock := 0 })).dir dir =
            some dirNode := by
          rw [State.dir, State.setNode, htaken.node_eq]
          dsimp only
          rw [update_of_ne hne]
          exact hdir
        have hadd := (hinv.addEntry (a := a) hdir').1
        rwa [addEntry_setNode] at hadd
  · cases hstep

theorem Inv.symlink {dir : ℕ} (h : Inv s) (hstep : exec s (.symlink dir id a) = some s') : Inv s' := by
  rw [exec] at hstep
  split at hstep
  · rename_i dirNode hdir hnode
    by_cases hfound : a.found = true
    · rw [if_pos hfound] at hstep
      cases hstep
      exact h
    · rw [if_neg hfound] at hstep
      dsimp only at hstep
      have hadd := (h.addEntry (a := a) hdir).1
      by_cases hok : (s.addEntry a dirNode).1 = true
      · rw [if_pos hok] at hstep
        split at hstep
        · cases hstep
          exact hadd
        · rename_i block tail s₂ hget
          obtain ⟨free, cells, hadd⟩ := hadd
          obtain ⟨taken, rest, htaken⟩ := hadd.getBlock hget
          cases hstep
          split_ifs
          · exact ⟨rest, _, htaken.setNode rfl fun hreg => by cases hreg⟩
          · exact ⟨rest, cells, htaken.toLayout⟩
      · rw [if_neg hok] at hstep
        cases hstep
        exact hadd
  · cases hstep

theorem Inv.create {dir rdev : ℕ} {kind : Kind} (h : Inv s)
    (hstep : exec s (.create dir id kind rdev a) = some s') : Inv s' := by
  rw [exec] at hstep
  split at hstep
  · rename_i dirNode hdir hnode
    by_cases hfound : a.found = true ∨ kind = .directory ∨ kind = .symlink
    · rw [if_pos hfound] at hstep
      cases hstep
      exact h
    · rw [if_neg hfound] at hstep
      dsimp only at hstep
      have hadd := (h.addEntry (a := a) hdir).1
      by_cases hok : (s.addEntry a dirNode).1 = true
      · rw [if_pos hok] at hstep
        cases hstep
        refine hadd.setNode_nil id _ fun nd hnd => ?_
        cases hnd
        cases kind with
        | regular => rfl
        | special => rfl
        | _ => simp at hfound
      · rw [if_neg hok] at hstep
        cases hstep
        exact hadd
  · cases hstep

theorem Inv.rename {target : Option ℕ} {newDir : ℕ} (h : Inv s) (hgood : Good s (.rename id target newDir a))
    (hstep : exec s (.rename id target newDir a) = some s') : Inv s' := by
  rw [exec] at hstep
  split at hstep
  · rename_i nd dirNode hnode hdir
    by_cases hsame : target = some id ∨ target = some newDir
    · rw [if_pos hsame] at hstep
      cases hstep
      exact h
    · rw [if_neg hsame] at hstep
      split at hstep
      · cases hstep
        exact h
      · rename_i s₁ hdel
        have hone : Inv s₁ ∧ s₁.dir newDir = some dirNode := by
          cases target with
          | none =>
            obtain rfl : s = s₁ := by simpa [State.delTarget] using hdel
            exact ⟨h, hdir⟩
          | some t =>
            rw [State.delTarget] at hdel
            split at hdel
            · obtain rfl : s = s₁ := by simpa using hdel
              exact ⟨h, hdir⟩
            · rename_i td htd
              split_ifs at hdel with hcond
              have hgives := hgood t td nd rfl (fun heq => hsame (.inl (by rw [heq]))) htd hnode hcond.1
                hcond.2.1 hcond.2.2
              rcases delEntry_of_not_gives (k := t) hgives with heq | heq
              · rw [heq] at hdel
                obtain rfl : s.setNode t none = s₁ := by simpa using hdel
                refine ⟨h.setNode_nil t none fun _ hnone => (by cases hnone), ?_⟩
                have hne : newDir ≠ t := fun heq => hsame (.inr (by rw [heq]))
                rw [State.dir, State.setNode]
                dsimp only
                rw [update_of_ne hne]
                exact hdir
              · rw [heq] at hdel
                cases hdel
        obtain ⟨hinv, hdir₁⟩ := hone
        by_cases hbusy : a.busy = true
        · rw [if_pos hbusy] at hstep
          cases hstep
          exact hinv
        · rw [if_neg hbusy] at hstep
          dsimp only at hstep
          have hadd := (hinv.addEntry (a := a) hdir₁).1
          by_cases hok : (s₁.addEntry a dirNode).1 = true
          · rw [if_pos hok] at hstep
            cases hstep
            exact hadd
          · rw [if_neg hok] at hstep
            cases hstep
            exact hadd.setNode_nil id none fun _ hnone => by cases hnone
  · cases hstep

theorem Inv.step {lab : Label} (h : Inv s) (hstep : Guarded Good Step s lab s') : Inv s' := by
  obtain ⟨hgood, hexec⟩ := hstep
  cases lab with
  | mkdir dir id a => exact h.mkdir hgood hexec
  | symlink dir id a => exact h.symlink hexec
  | create dir id kind rdev a => exact h.create hexec
  | get nr a =>
    change exec s _ = _ at hexec
    rw [exec] at hexec
    split at hexec
    · rename_i hget
      cases hexec
      exact h.getBlock hget
    · cases hexec
      exact h
  | put head tail a =>
    have hread : a.read tail = false := hgood
    change exec s _ = _ at hexec
    simp only [exec, State.putBlock, hread, Bool.false_eq_true, if_false, Option.some.injEq] at hexec
    subst hexec
    exact h
  | truncate id size a =>
    change exec s _ = _ at hexec
    rw [exec] at hexec
    split at hexec
    · rename_i nd hnode
      split_ifs at hexec with hkind
      · cases hexec
        obtain ⟨hgrow, hread⟩ := hgood nd hnode hkind
        exact h.truncate hnode hkind hgrow hread
      · cases hexec
        exact h
    · cases hexec
  | write id start count a =>
    change exec s _ = _ at hexec
    rw [exec] at hexec
    split at hexec
    · rename_i nd hnode
      split_ifs at hexec with hkind
      · cases hexec
        exact h.write hnode hkind
      · cases hexec
        exact h
    · cases hexec
  | unlink id a =>
    change exec s _ = _ at hexec
    rw [exec] at hexec
    split at hexec
    · rename_i nd hnode
      split_ifs at hexec with hnot
      · cases hexec
        exact h
      · cases hexec
        refine h.delEntry ?_
        simp only [not_or, Bool.not_eq_true] at hnot
        exact hgood nd hnode hnot.1 hnot.2
    · cases hexec
  | rmdir id a =>
    change exec s _ = _ at hexec
    rw [exec] at hexec
    split at hexec
    · rename_i nd hnode
      split_ifs at hexec with hnot
      · cases hexec
        exact h
      · cases hexec
        refine h.delEntry ?_
        simp only [not_or, Bool.not_eq_true, not_not, Bool.not_eq_false] at hnot
        exact hgood nd hnode hnot.1 hnot.2.1 hnot.2.2.1 hnot.2.2.2
    · cases hexec
  | rename id target newDir a => exact h.rename hgood hexec

/-- With its chains a filesystem answers a request when the free chain is long enough. -/
theorem Inv.consistent (h : Inv s) : Consistent s := by
  obtain ⟨free, cells, h⟩ := h
  refine ⟨free, cells, h, h.linked.nodup, h.nodup, fun nr hpos => ⟨?_, fun hle => ?_⟩⟩
  · rintro ⟨⟨head, tail, s'⟩, hget⟩
    rw [← h.count]
    exact (getBlock_nrFree hget).1
  · have htake := takeBlocks_isSome (g := fun _ => true) h.linked (fun _ => rfl) hpos hle
    obtain ⟨r, hr⟩ := Option.isSome_iff_exists.mp htake
    rw [← h.count] at hle
    rw [State.getBlock, if_neg (Nat.pos_iff_ne_zero.mp hpos), if_neg (Nat.not_lt.mpr hle), hr]
    exact ⟨_, rfl⟩

/-- A new filesystem of eight blocks. -/
def smallImage : State where
  nrBlocks := 8
  next b := if 2 ≤ b ∧ b < 7 then b + 1 else 0
  free := 2
  nrFree := 6
  node id := if id = 0 then some { kind := .directory, rdev := 1, nrBlock := 0 } else none

theorem smallImage_consistent : Consistent smallImage := by
  refine Inv.consistent ⟨[2, 3, 4, 5, 6, 7], fun id => if id = 0 then [1] else [], ?_⟩
  refine ⟨by simp [smallImage, Linked], rfl, fun id nd hnode => ?_, fun id hnode => ?_,
    fun id b hb => ?_, by decide, fun id => ?_, fun id id' hne => ?_⟩
  · by_cases hid : id = 0
    · subst hid
      cases hnode
      simp [Chain, Node.head, Linked, smallImage]
    · simp [smallImage, hid] at hnode
  · by_cases hid : id = 0
    · simp [smallImage, hid] at hnode
    · simp [hid]
  · by_cases hid : id = 0
    · simp only [hid, if_true, List.mem_singleton] at hb
      subst hb
      decide
    · simp [hid] at hb
  · by_cases hid : id = 0 <;> simp [hid]
  · by_cases hid : id = 0
    · have hid' : id' ≠ 0 := fun h => hne (hid.trans h.symm)
      simp [hid']
    · simp [hid]

/-- Everything can be read, there is room and nobody else is there. -/
def plain : Answers where
  read _ := true
  map := true
  found := false
  full := false
  busy := false
  targetBusy := false
  empty := true

def after (labels : List Label) : State :=
  labels.foldl (fun s l => (exec s l).getD s) smallImage

end Mario.Fs.Mariofs
