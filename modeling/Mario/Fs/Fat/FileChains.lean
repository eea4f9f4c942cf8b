import Mario.Fs.Fat.Files

/-!
# The chains of a FAT in a run

What the calls do to the chain of the inode they work on, and what a run keeps.
-/

namespace Mario.Fs.Fat.Clusters

open Mario.Lib Function

variable {s s' : State} {t t' : Table} {a : Answers} {id : ℕ} {nd nd' : Node} {head : Option ℕ → ℕ}
  {chain : Option ℕ → List ℕ} {l : List ℕ} {n index done : ℕ}

/-! ## One inode -/

/-- The chains when a call works on an inode: those of all others are the old ones. -/
def Holds (head : Option ℕ → ℕ) (chain : Option ℕ → List ℕ) (id : ℕ) (nd : Node) (t : Table) : Prop :=
  head none = 0 ∧ ∃ l, Layout t (update head (some id) nd.start)
    (update chain (some id) l) ∧ nd.cache.Ok nd.start l

/-- The first cluster that an inode without clusters gets is not the one of a remembered lookup. -/
def Fresh (nd : Node) (t : Table) : Prop :=
  nd.start = 0 → ∀ c, t.scan = some c → nd.cache.FitsStart c

theorem Holds.clusterAtAlloc (ha : a.Clean) (h : Holds head chain id nd t) (hfresh : Fresh nd t) (index : ℕ) :
    Holds head chain id { nd with start := (t.clusterAtAlloc a nd.start index).2.1 }
        (t.clusterAtAlloc a nd.start index).2.2 ∧
      ((t.clusterAtAlloc a nd.start index).1 ≠ 0 → (t.clusterAtAlloc a nd.start index).2.1 ≠ 0) ∧
      (nd.start ≠ 0 → (t.clusterAtAlloc a nd.start index).2.1 = nd.start) := by
  obtain ⟨hnone, l, hlayout, hcache⟩ := h
  obtain ⟨new, hnew, hfound, hsame, hscan, -⟩ := hlayout.clusterAtAlloc ha (some id) index
  simp only [update_self, update_idem] at hnew hfound hsame hscan
  have hchain := hnew.isChain (some id)
  simp only [update_self] at hchain
  have hold := hlayout.isChain (some id)
  simp only [update_self] at hold
  refine ⟨⟨hnone, l ++ new, hnew, ?_⟩, fun hne hzero => ?_, hsame⟩
  · by_cases hstart : nd.start = 0
    · refine hcache.restart hchain fun hvalid heq => ?_
      by_cases hzero : (t.clusterAtAlloc a nd.start index).2.1 = 0
      · rw [hzero] at heq
        exact hcache.empty hvalid heq
      · exact hfresh hstart _ (hscan hstart hzero) hvalid heq
    · rw [hsame hstart]
      refine hcache.append ?_ new
      rintro rfl
      exact hstart hold.head_eq_zero
  · rw [hzero] at hchain
    have hget := hfound hne
    rw [hchain.eq_nil] at hget
    simp at hget

theorem Holds.touch {w : ℕ → Bool} (ha : a.Clean) (h : Holds head chain id nd t) (hfresh : Fresh nd t)
    (n index : ℕ) : Holds head chain id { nd with start := (touch a w n index nd.start t).2.1 }
        (touch a w n index nd.start t).2.2 ∧
      ((touch a w n index nd.start t).1 ≠ 0 → (touch a w n index nd.start t).2.1 ≠ 0) ∧
      (nd.start ≠ 0 → (touch a w n index nd.start t).2.1 = nd.start) := by
  induction n generalizing nd t index with
  | zero => exact ⟨h, fun hne => absurd rfl hne, fun _ => rfl⟩
  | succ n ih =>
    obtain ⟨hholds, hstart, hsame⟩ := h.clusterAtAlloc ha hfresh index
    rw [Clusters.touch]
    dsimp only
    by_cases hstop : (t.clusterAtAlloc a nd.start index).1 = 0 ∨ w (t.clusterAtAlloc a nd.start index).1 = false
    · rw [if_pos hstop]
      exact ⟨hholds, fun hne => absurd rfl hne, hsame⟩
    · rw [if_neg hstop]
      rw [not_or] at hstop
      have hne := hstart hstop.1
      obtain ⟨hrest, -, hkeep⟩ := ih hholds (fun hzero => absurd hzero hne) (index + 1)
      have hkept := hkeep hne
      dsimp only at hkept hrest ⊢
      refine ⟨hrest, fun _ => by rw [hkept]; exact hne, fun hpos => by rw [hkept]; exact hsame hpos⟩

theorem Holds.freeChain {y : Node} (ha : a.Clean) (h : Holds head chain id nd t) (hcache : y.cache.Ok 0 [])
    (hstart : y.start = 0) : ∃ t', t.freeChain a nd.start = (true, t') ∧ Holds head chain id y t' := by
  obtain ⟨hnone, l, hlayout, -⟩ := h
  obtain ⟨t', hfree, hnew⟩ := hlayout.freeChain ha (some id)
  rw [update_self] at hfree
  rw [update_idem, update_idem] at hnew
  refine ⟨t', hfree, hnone, [], ?_, ?_⟩
  · rwa [hstart]
  · rwa [hstart]

theorem Layout.cutFree {c : ℕ} {l' : List ℕ} (ha : a.Clean) (hnone : head none = 0)
    (h : Layout t head chain) (hchain : chain (some id) = l ++ [c] ++ l') :
    ∃ t', (t.put c fatEocMax).freeChain a (t.succ c) = (true, t') ∧
      Layout t' head (update chain (some id) (l ++ [c])) := by
  have hne : (some id : Option ℕ) ≠ none := Option.some_ne_none id
  have hcut := h.cut hchain hnone hne
  obtain ⟨t', hfree, hnew⟩ := hcut.freeChain ha none
  rw [update_self] at hfree
  refine ⟨t', hfree, ?_⟩
  have hempty := h.chain_eq_nil hnone
  have hhead : update head none 0 = head := by
    rw [← hnone, update_eq_self]
  have hrest : update (update chain (some id) (l ++ [c])) none [] =
      update chain (some id) (l ++ [c]) := by
    rw [← hempty, update_comm hne]
    rw [update_eq_self]
  rw [update_idem, update_idem, hhead, hrest] at hnew
  exact hnew

theorem write_cut_cases (ha : a.Clean) {c : ℕ} (hvalid : t.Valid c) :
    t.write a .cut c fatEocMax = (true, t.put c fatEocMax) ∨ t.write a .cut c fatEocMax = (false, t) := by
  cases hans : a.fat .cut c with
  | ok => exact .inl (write_ok hvalid hans)
  | before =>
    right
    rw [Table.write, if_pos hvalid]
    simp only [hans]
  | after => exact absurd hans (ha.cut c)

theorem Holds.rollback (ha : a.Clean) (h : Holds head chain id nd t) (keep : ℕ) :
    Holds head chain id (rollback a nd t keep).1 (rollback a nd t keep).2 := by
  rw [Clusters.rollback]
  by_cases hkeep : keep = 0
  · rw [if_pos hkeep]
    obtain ⟨t', hfree, hholds⟩ := h.freeChain (a := a) ha
      (y := { nd with start := 0, cache := { nd.cache with valid := false } })
      (Cache.ok_of_invalid rfl) rfl
    rw [hfree]
    exact hholds
  · rw [if_neg hkeep]
    obtain ⟨hnone, l, hlayout, hcache⟩ := h
    have hchain := hlayout.isChain (some id)
    simp only [update_self] at hchain
    obtain ⟨hget, hok⟩ := hcache.clusterAt hchain hlayout.small (keep - 1)
    have hsame : Holds head chain id { nd with cache := (t.clusterAt nd.start nd.cache (keep - 1)).2 } t :=
      ⟨hnone, l, hlayout, hok⟩
    dsimp only
    by_cases hc : (t.clusterAt nd.start nd.cache (keep - 1)).1 = 0
    · rw [if_pos hc]
      exact hsame
    · rw [if_neg hc]
      generalize hcl : (t.clusterAt nd.start nd.cache (keep - 1)).1 = c at hget hc ⊢
      have hmem : c ∈ l := by
        rw [List.getD_eq_getElem?_getD] at hget
        cases hsome : l[keep - 1]? with
        | none =>
          rw [hsome] at hget
          exact absurd hget hc
        | some d =>
          rw [hsome] at hget
          obtain rfl : c = d := hget
          exact List.mem_of_getElem? hsome
      rw [hchain.next hlayout.small hmem]
      by_cases hlast : t.succ c = 0
      · rw [if_pos hlast]
        exact hsame
      · rw [if_neg hlast]
        dsimp only
        rcases write_cut_cases ha (hchain.used c hmem).1 with hw | hw
        · rw [hw]
          obtain ⟨l₁, l₂, hsplit⟩ := List.append_of_mem hmem
          have hsplit' : update chain (some id) l (some id) = l₁ ++ [c] ++ l₂ := by
            rw [update_self, hsplit, List.append_assoc, List.singleton_append]
          obtain ⟨t', hfree, hnew⟩ := hlayout.cutFree ha
            (by rw [update_of_ne (Option.some_ne_none id).symm]; exact hnone) hsplit'
          dsimp only
          rw [hfree]
          rw [update_idem] at hnew
          exact ⟨hnone, l₁ ++ [c], hnew, Cache.ok_of_invalid rfl⟩
        · rw [hw]
          exact hsame

theorem Holds.walk (h : Holds head chain id nd t) :
    ∃ l, Layout t (update head (some id) nd.start) (update chain (some id) l) ∧
      nd.cache.Ok nd.start l ∧ Chain t nd.start l ∧ t.walk t.total nd.start = l := by
  obtain ⟨-, l, hlayout, hcache⟩ := h
  have hchain := hlayout.isChain (some id)
  simp only [update_self] at hchain
  exact ⟨l, hlayout, hcache, hchain, hchain.walk hlayout.small hchain.length_le⟩

/-- The first part of `fat_file_truncate` keeps the chains. When it goes on with clusters to keep,
there are clusters. -/
theorem Holds.resize (ha : a.Clean) (h : Holds head chain id nd t) (hfresh : Fresh nd t) (needed : ℕ)
    (hcut : 0 < needed → needed < (t.walk t.total nd.start).length → nd.cache.valid = true →
      nd.cache.start = nd.start → nd.cache.index < needed) :
    Holds head chain id (resize a nd t needed).2.1 (resize a nd t needed).2.2 ∧
      ((resize a nd t needed).1 = true → needed ≠ 0 → (resize a nd t needed).2.1.start ≠ 0) := by
  have hnone := h.1
  obtain ⟨l, hlayout, hcache, hchain, hwalk⟩ := h.walk
  rw [Clusters.resize]
  dsimp only
  rw [hwalk] at hcut ⊢
  by_cases hless : needed < l.length
  · rw [if_pos hless]
    have hpos : nd.start ≠ 0 := by
      intro hzero
      rw [hzero] at hchain
      rw [hchain.eq_nil] at hless
      simp at hless
    by_cases hzero : needed = 0
    · rw [if_pos hzero]
      have hok : Cache.Ok nd.cache 0 [] :=
        hcache.restart (s := t) ⟨rfl, by simp⟩ fun hvalid hstart => hcache.empty hvalid hstart
      obtain ⟨t', hfree, hholds⟩ := h.freeChain ha (y := { nd with start := 0 }) hok rfl
      rw [hfree]
      exact ⟨hholds, fun _ hne => absurd hzero hne⟩
    · rw [if_neg hzero]
      obtain ⟨new, hnew, hfound, hsame, -, hnil⟩ := hlayout.clusterAtAlloc ha (some id) (needed - 1)
      simp only [update_self, update_idem] at hnew hfound hsame hnil
      rw [hnil (by omega), List.append_nil] at hfound
      rw [hnil (by omega), List.append_nil, hsame hpos] at hnew
      have hstart := hsame hpos
      generalize hkeep : t.clusterAtAlloc a nd.start (needed - 1) = r at hnew hfound hstart ⊢
      obtain ⟨keep, start, t₁⟩ := r
      dsimp only at hnew hfound hstart ⊢
      subst hstart
      have hkept : Holds head chain id nd t₁ := ⟨hnone, l, hnew, hcache⟩
      have hchain₁ := hnew.isChain (some id)
      simp only [update_self] at hchain₁
      by_cases hk : keep = 0
      · rw [if_pos hk]
        exact ⟨hkept, fun hfalse => by cases hfalse⟩
      · rw [if_neg hk]
        have hget := hfound hk
        have hmem := List.mem_of_getElem? hget
        obtain ⟨hlt, hgetElem⟩ := List.getElem?_eq_some_iff.mp hget
        have hsplit : l = l.take (needed - 1) ++ [keep] ++ l.drop needed := by
          have hdrop := List.drop_eq_getElem_cons hlt
          rw [hgetElem, show needed - 1 + 1 = needed by omega] at hdrop
          rw [List.append_assoc, List.singleton_append, ← hdrop, List.take_append_drop]
        have htake : l.take (needed - 1) ++ [keep] = l.take needed := by
          have hsucc := List.take_succ_eq_append_getElem hlt
          rw [hgetElem, show needed - 1 + 1 = needed by omega] at hsucc
          exact hsucc.symm
        rw [hchain₁.next hnew.small hmem]
        have hne : t₁.succ keep ≠ 0 := by
          intro hlast
          have hlinked := hchain₁.linked
          rw [hsplit, List.append_assoc, List.singleton_append] at hlinked
          obtain ⟨q, -, hrest⟩ := hlinked.suffix
          have htail := hrest.2.2
          rw [hlast] at htail
          have hlen := List.drop_eq_nil_iff.mp htail.eq_nil
          omega
        rw [if_neg hne]
        dsimp only
        rcases write_cut_cases ha (hchain₁.used keep hmem).1 with hw | hw
        · rw [hw]
          have hsplit' : update chain (some id) l (some id) =
              l.take (needed - 1) ++ [keep] ++ l.drop needed := by
            rw [update_self]
            exact hsplit
          obtain ⟨t', hfree, hlayout'⟩ := hnew.cutFree ha
            (by rw [update_of_ne (Option.some_ne_none id).symm]; exact hnone) hsplit'
          rw [update_idem, htake] at hlayout'
          dsimp only
          rw [hfree]
          refine ⟨⟨hnone, _, hlayout', hcache.take ?_⟩, fun _ _ => hpos⟩
          exact hcut (by omega) hless
        · rw [hw]
          exact ⟨hkept, fun hfalse => by cases hfalse⟩
  · rw [if_neg hless]
    by_cases hmore : l.length < needed
    · rw [if_pos hmore]
      obtain ⟨hholds, hstart, -⟩ := h.clusterAtAlloc ha hfresh (needed - 1)
      refine ⟨hholds, fun htrue _ => hstart ?_⟩
      simpa using htrue
    · rw [if_neg hmore]
      refine ⟨h, fun _ hne hzero => ?_⟩
      dsimp only at hzero
      rw [hzero] at hchain
      rw [hchain.eq_nil] at hless hmore
      simp only [List.length_nil] at hless hmore
      omega

theorem Holds.zeroGap {y z : ℕ} (ha : a.Clean) (h : Holds head chain id nd t)
    (hfresh : 0 < span y nd.size z → Fresh nd t) :
    Holds head chain id (zeroGap a y nd t z).2.1 (zeroGap a y nd t z).2.2 ∧
      ((zeroGap a y nd t z).1 = true → (zeroGap a y nd t z).2.1.start = 0 →
        nd.start = 0 ∧ (zeroGap a y nd t z).2 = (nd, t)) := by
  rw [Clusters.zeroGap]
  dsimp only
  by_cases hn : span y nd.size z = 0
  · rw [hn]
    simp only [Clusters.touch, if_true]
    exact ⟨h, fun _ hzero => ⟨hzero, trivial⟩⟩
  · obtain ⟨hholds, hstart, -⟩ := h.touch (w := a.zero) ha (hfresh (Nat.pos_of_ne_zero hn))
      (span y nd.size z) (nd.size / y)
    by_cases hdone : (Clusters.touch a a.zero (span y nd.size z) (nd.size / y) nd.start t).1 = span y nd.size z
    · rw [if_pos hdone]
      refine ⟨hholds, fun _ hzero => absurd hzero (hstart ?_)⟩
      rw [hdone]
      exact hn
    · rw [if_neg hdone]
      exact ⟨hholds.rollback ha _, fun hfalse => by cases hfalse⟩

theorem Holds.truncate {clusterSize size : ℕ} {inode : Bool} (ha : a.Clean) (hpos : 0 < clusterSize)
    (h : Holds head chain id nd t) (hfresh : Fresh nd t)
    (hcut : 0 < clustersOf clusterSize size →
      clustersOf clusterSize size < (t.walk t.total nd.start).length → nd.cache.valid = true →
      nd.cache.start = nd.start → nd.cache.index < clustersOf clusterSize size) :
    Holds head chain id (truncate a inode clusterSize nd t size).1 (truncate a inode clusterSize nd t size).2 := by
  obtain ⟨hresize, hstart⟩ := h.resize ha hfresh (clustersOf clusterSize size) hcut
  rw [Clusters.truncate]
  rcases hr : Clusters.resize a nd t (clustersOf clusterSize size) with ⟨_ | _, nd₁, t₁⟩
  · rw [hr] at hresize
    exact hresize
  · rw [hr] at hresize hstart
    dsimp only at hresize hstart ⊢
    have hgap : 0 < span clusterSize nd₁.size size → Fresh nd₁ t₁ := by
      intro hspan hzero
      refine absurd hzero (hstart rfl ?_)
      have hsize : 0 < size := by
        rw [span] at hspan
        split_ifs at hspan
        · omega
        · omega
      have : 0 < clustersOf clusterSize size := Nat.div_pos (by omega) hpos
      omega
    obtain ⟨hzero, -⟩ := hresize.zeroGap ha hgap
    rcases hz : Clusters.zeroGap a clusterSize nd₁ t₁ size with ⟨_ | _, nd₂, t₂⟩
    · rw [hz] at hzero
      exact hzero
    · rw [hz] at hzero
      exact hzero

theorem Holds.write {y u v : ℕ} {z : Bool} (ha : a.Clean) (h : Holds head chain id nd t) (hfresh : Fresh nd t) :
    Holds head chain id (write a z y nd t u v).1 (write a z y nd t u v).2 := by
  rw [Clusters.write]
  by_cases hcount : v = 0
  · rw [if_pos hcount]
    exact h
  · rw [if_neg hcount]
    dsimp only
    obtain ⟨hzero, hsame⟩ := h.zeroGap (z := u) (y := y) ha fun _ => hfresh
    rcases hz : Clusters.zeroGap a y nd t u with ⟨_ | _, nd₁, t₁⟩
    · rw [hz] at hzero
      exact hzero
    · rw [hz] at hzero hsame
      dsimp only at hzero hsame ⊢
      have hfresh₁ : Fresh nd₁ t₁ := by
        intro hnone
        obtain ⟨hold, heq⟩ := hsame rfl hnone
        cases heq
        exact hfresh hold
      obtain ⟨htouch, -, -⟩ := hzero.touch (w := a.data) ha hfresh₁ (span y u (u + v)) (u / y)
      by_cases hdone : (Clusters.touch a a.data (span y u (u + v)) (u / y) nd₁.start t₁).1 = 0
      · rw [if_pos hdone]
        have hsized : Holds head chain id { nd₁ with
            start := (Clusters.touch a a.data (span y u (u + v)) (u / y) nd₁.start t₁).2.1
            size := max nd₁.size (reached y u v (Clusters.touch a a.data
              (span y u (u + v)) (u / y) nd₁.start t₁).1) }
            (Clusters.touch a a.data (span y u (u + v)) (u / y) nd₁.start t₁).2.2 := htouch
        exact hsized.rollback ha _
      · rw [if_neg hdone]
        exact htouch

/-! ## Directories -/

theorem Layout.growDir (ha : a.Clean) (h : Layout t head chain) {i : Option ℕ} {u w : ℕ}
    (hi : head i ≠ 0) (hprevious : w = (chain i).getLastD 0) (hzero : 0 < n → ∀ c, a.zero c = true) :
    ∃ l, Layout (growDir a n t w u).2 head (update chain i (chain i ++ l)) := by
  induction n generalizing t chain w u with
  | zero => exact ⟨[], by simpa [Clusters.growDir] using h⟩
  | succ n ih =>
    rw [Clusters.growDir]
    rcases alloc_cases (s := t) (w := w) ha.mark ha.link with hnone | ⟨c, hscan, hsome⟩
    · rw [hnone]
      exact ⟨[], by simpa using h⟩
    · obtain ⟨hvalid, hc⟩ := scan_some hscan
      have htaken := h.taken hvalid hc i hprevious
      rw [if_neg hi, update_eq_self] at htaken
      rw [hsome]
      dsimp only
      rw [if_pos (hzero (Nat.succ_pos n) c)]
      obtain ⟨l, hl⟩ := ih (u := if u = 0 then c else u) (w := c) htaken
        (by rw [update_self, getLastD_append]) fun _ => hzero (Nat.succ_pos n)
      rw [update_self, update_idem, List.append_assoc] at hl
      exact ⟨[c] ++ l, hl⟩

theorem Layout.addEntry {y : Node} (ha : a.Clean) (h : Layout t head chain) {dir : ℕ} {w : ℕ} {z : Added}
    (hdir : head (some dir) = y.start) (hne : y.start ≠ 0) (hzero : 0 < w → ∀ c, a.zero c = true) :
    (∃ l, Layout (addEntry a t y w z).2 head
        (update chain (some dir) (chain (some dir) ++ l))) ∧
      ((addEntry a t y w z).1 = z ∨ (addEntry a t y w z).1 = .failed) := by
  have hchain := h.isChain (some dir)
  rw [hdir] at hchain
  have hwalk := hchain.walk h.small hchain.length_le
  obtain ⟨l, hl⟩ := h.growDir (i := some dir) (n := w) (u := 0)
    (w := (chain (some dir)).getLastD 0) ha (by rw [hdir]; exact hne) rfl hzero
  rw [Clusters.addEntry, hwalk]
  rcases hg : Clusters.growDir a w t ((chain (some dir)).getLastD 0) 0 with ⟨_ | _, t'⟩
  · rw [hg] at hl
    exact ⟨⟨l, hl⟩, .inr rfl⟩
  · rw [hg] at hl
    exact ⟨⟨l, hl⟩, .inl rfl⟩

/-! ## What an inode keeps -/

/-- What the calls for the bytes of a file do not change. -/
def SameKind (nd nd' : Node) : Prop := nd'.live = nd.live ∧ nd'.dir = nd.dir

theorem rollback_sameKind (a : Answers) (nd : Node) (t : Table) (keep : ℕ) : SameKind nd (rollback a nd t keep).1 := by
  rw [rollback]
  split
  · exact ⟨rfl, rfl⟩
  · split
    split
    · exact ⟨rfl, rfl⟩
    · split
      · split <;> exact ⟨rfl, rfl⟩
      · exact ⟨rfl, rfl⟩

theorem resize_sameKind (a : Answers) (nd : Node) (t : Table) (needed : ℕ) :
    SameKind nd (resize a nd t needed).2.1 := by
  rw [resize]
  dsimp only
  split
  · split
    · split <;> exact ⟨rfl, rfl⟩
    · split
      · exact ⟨rfl, rfl⟩
      · split
        · exact ⟨rfl, rfl⟩
        · exact ⟨rfl, rfl⟩
        · split <;> exact ⟨rfl, rfl⟩
  · split <;> exact ⟨rfl, rfl⟩

theorem zeroGap_sameKind (a : Answers) (clusterSize : ℕ) (nd : Node) (t : Table) (stop : ℕ) :
    SameKind nd (zeroGap a clusterSize nd t stop).2.1 := by
  rw [zeroGap]
  dsimp only
  split
  · exact ⟨rfl, rfl⟩
  · exact rollback_sameKind a _ _ _

theorem SameKind.trans {nd'' : Node} (h : SameKind nd nd') (h' : SameKind nd' nd'') :
    SameKind nd nd'' := ⟨h'.1.trans h.1, h'.2.trans h.2⟩

theorem truncate_sameKind (a : Answers) (inode : Bool) (clusterSize : ℕ) (nd : Node) (t : Table)
    (size : ℕ) : SameKind nd (truncate a inode clusterSize nd t size).1 := by
  have hresize := resize_sameKind a nd t (clustersOf clusterSize size)
  rw [truncate]
  rcases hr : resize a nd t (clustersOf clusterSize size) with ⟨_ | _, nd₁, t₁⟩
  · rw [hr] at hresize
    exact hresize
  · rw [hr] at hresize
    have hgap := zeroGap_sameKind a clusterSize nd₁ t₁ size
    dsimp only
    rcases hz : zeroGap a clusterSize nd₁ t₁ size with ⟨_ | _, nd₂, t₂⟩
    · rw [hz] at hgap
      exact hresize.trans hgap
    · rw [hz] at hgap
      exact hresize.trans hgap

theorem write_sameKind (a : Answers) (inode : Bool) (clusterSize : ℕ) (nd : Node) (t : Table)
    (pos count : ℕ) : SameKind nd (write a inode clusterSize nd t pos count).1 := by
  have hgap := zeroGap_sameKind a clusterSize nd t pos
  rw [write]
  by_cases hcount : count = 0
  · rw [if_pos hcount]
    exact ⟨rfl, rfl⟩
  · rw [if_neg hcount]
    dsimp only
    rcases hz : zeroGap a clusterSize nd t pos with ⟨_ | _, nd₁, t₁⟩
    · rw [hz] at hgap
      exact hgap
    · rw [hz] at hgap
      dsimp only
      split
      · exact hgap.trans (rollback_sameKind a _ _ _)
      · exact hgap

/-! ## The invariant -/

/-- Live inodes have chains that share no cluster and remember lookups in them, and directories have a
cluster. -/
structure Inv (s : State) : Prop where
  clusterSize : 0 < s.clusterSize
  dir : ∀ id nd, s.node id = some nd → nd.live = true → nd.dir = true → nd.start ≠ 0
  chains : ∃ chain, Layout s.table s.head chain ∧
    ∀ id nd, s.node id = some nd → nd.live = true → nd.cache.Ok nd.start (chain (some id))

theorem head_some (h : s.node id = some nd) (hlive : nd.live = true) : s.head (some id) = nd.start := by
  rw [State.head]
  simp only [h, hlive, if_true]

theorem head_setNode (s : State) (t : Table) (id : ℕ) (nd : Node) :
    ((s.setTable t).setNode id nd).head = update s.head (some id) (if nd.live then nd.start else 0) := by
  funext i
  cases i with
  | none => rfl
  | some j =>
    by_cases hj : j = id
    · subst hj
      simp [State.head, State.setNode]
    · have hne : (some j : Option ℕ) ≠ some id := fun h => hj (Option.some.inj h)
      rw [update_of_ne hne]
      simp [State.head, State.setNode, State.setTable, hj]

/-- A call that works on one inode keeps the invariant when it keeps the chains. -/
theorem Inv.of_holds {u : Table} (h : Inv s) (hnode : s.node id = some nd) (hlive : nd.live = true)
    (hholds : ∀ chain, Holds s.head chain id nd s.table → Holds s.head chain id nd' u)
    (hsame : SameKind nd nd') (hdir : nd.dir = true → nd'.start = nd.start) : Inv ((s.setTable u).setNode id nd') := by
  obtain ⟨chain, hlayout, hcache⟩ := h.chains
  have hstart := head_some hnode hlive
  obtain ⟨-, l, hnew, hok⟩ := hholds chain ⟨rfl, chain (some id), by
    rwa [← hstart, update_eq_self, update_eq_self], hcache id nd hnode hlive⟩
  have hlive' : nd'.live = true := hsame.1.trans hlive
  have hget : ∀ j nj, ((s.setTable u).setNode id nd').node j = some nj →
      j = id ∧ nj = nd' ∨ j ≠ id ∧ s.node j = some nj := by
    intro j nj hj
    by_cases hji : j = id
    · subst hji
      simp only [State.setNode, update_self, Option.some.injEq] at hj
      exact .inl ⟨rfl, hj.symm⟩
    · simp only [State.setNode, State.setTable, update_of_ne hji] at hj
      exact .inr ⟨hji, hj⟩
  refine ⟨h.clusterSize, fun j nj hj hl hd => ?_, update chain (some id) l, ?_, fun j nj hj hl => ?_⟩
  · rcases hget j nj hj with ⟨rfl, rfl⟩ | ⟨-, hold⟩
    · have hd' : nd.dir = true := hsame.2.symm.trans hd
      rw [hdir hd']
      exact h.dir j nd hnode hlive hd'
    · exact h.dir j nj hold hl hd
  · rw [head_setNode, if_pos hlive']
    exact hnew
  · rcases hget j nj hj with ⟨rfl, rfl⟩ | ⟨hji, hold⟩
    · rw [update_self]
      exact hok
    · rw [update_of_ne fun heq => hji (Option.some.inj heq)]
      exact hcache j nj hold hl

theorem dir_some {dir : ℕ} (h : s.dir dir = some nd) : s.node dir = some nd ∧ nd.live = true ∧ nd.dir = true := by
  obtain ⟨hnode, hkind⟩ := Option.filter_eq_some_iff.mp h
  rw [Bool.and_eq_true] at hkind
  exact ⟨hnode, hkind.1, hkind.2⟩

theorem entry_some (h : s.entry id = some nd) : s.node id = some nd ∧ nd.live = true := by
  rw [State.entry] at h
  split_ifs at h
  exact Option.filter_eq_some_iff.mp h

theorem Inv.addEntry {dir w : ℕ} {z : Added} (ha : a.Clean) (h : Inv s)
    (hdir : s.dir dir = some nd) (hzero : 0 < w → ∀ c, a.zero c = true) :
    Inv (s.setTable (addEntry a s.table nd w z).2) ∧
      ((addEntry a s.table nd w z).1 = z ∨ (addEntry a s.table nd w z).1 = .failed) := by
  obtain ⟨hnode, hlive, hisdir⟩ := dir_some hdir
  obtain ⟨chain, hlayout, hcache⟩ := h.chains
  have hne := h.dir dir nd hnode hlive hisdir
  have hhead := head_some hnode hlive
  obtain ⟨⟨l, hl⟩, hadded⟩ := hlayout.addEntry (w := w) (z := z) ha hhead hne hzero
  refine ⟨⟨h.clusterSize, h.dir, _, hl, fun id nj hj hl' => ?_⟩, hadded⟩
  have hok := hcache id nj hj hl'
  by_cases hid : id = dir
  · subst hid
    rw [update_self]
    refine hok.append ?_ l
    intro hnil
    have hchain := hlayout.isChain (some id)
    rw [hnil, hhead] at hchain
    exact hne hchain.head_eq_zero
  · rwa [update_of_ne fun heq => hid (Option.some.inj heq)]

theorem Cache.Plain.ok {k : Cache} {start : ℕ} (hk : k.Plain) (hs : Chain t start l)
    (hfits : k.FitsStart start) : k.Ok start l := by
  refine ⟨fun hvalid hstart => ?_, fun _ => hk.1, fun _ => hk.2⟩
  have hindex := hfits hvalid hstart
  rw [hindex, hk.1 hindex, hstart]
  cases l with
  | nil => exact ⟨hs.head_eq_zero, fun hne => absurd rfl hne⟩
  | cons c l => exact ⟨hs.linked.1, fun _ => Nat.succ_pos _⟩

theorem head_none (h : s.node id = none) : s.head (some id) = 0 := by
  rw [State.head]
  simp only [h]

theorem Inv.setNew {u : Table} (h : Inv s) (hnode : s.node id = none) (hlive : nd.live = true)
    (hplain : nd.cache.Plain) (hfits : nd.cache.FitsStart nd.start) (hdir : nd.dir = true → nd.start ≠ 0)
    (hchain : ∀ chain, Layout s.table s.head chain →
      ∃ l, Layout u (update s.head (some id) nd.start) (update chain (some id) l)) :
    Inv ((s.setTable u).setNode id nd) := by
  obtain ⟨chain, hlayout, hcache⟩ := h.chains
  obtain ⟨l, hnew⟩ := hchain chain hlayout
  refine ⟨h.clusterSize, fun j nj hj hl hd => ?_, update chain (some id) l, ?_, fun j nj hj hl => ?_⟩
  · by_cases hji : j = id
    · subst hji
      simp only [State.setNode, update_self, Option.some.injEq] at hj
      subst hj
      exact hdir hd
    · simp only [State.setNode, State.setTable, update_of_ne hji] at hj
      exact h.dir j nj hj hl hd
  · rw [head_setNode, if_pos hlive]
    exact hnew
  · by_cases hji : j = id
    · subst hji
      simp only [State.setNode, update_self, Option.some.injEq] at hj
      subst hj
      have hself := hnew.isChain (some j)
      rw [update_self, update_self] at hself
      rw [update_self]
      exact hplain.ok hself hfits
    · simp only [State.setNode, State.setTable, update_of_ne hji] at hj
      rw [update_of_ne fun heq => hji (Option.some.inj heq)]
      exact hcache j nj hj hl

theorem Inv.free {y : Node} {k : ℕ} (ha : a.Clean) (h : Inv s) (hnode : s.node k = some y) (hlive : y.live = true) :
    ∃ t', s.table.freeChain a y.start = (true, t') ∧
      ∀ s', s'.table = t' → s'.clusterSize = s.clusterSize → (∀ j ≠ k, s'.node j = s.node j) →
        (∀ nd', s'.node k = some nd' → nd'.live = false) → Inv s' := by
  obtain ⟨chain, hlayout, hcache⟩ := h.chains
  obtain ⟨t', hfree, hnew⟩ := hlayout.freeChain ha (some k)
  rw [head_some hnode hlive] at hfree
  refine ⟨t', hfree, fun s' htable hsize hother hself => ⟨by rw [hsize]; exact h.clusterSize,
    fun j nj hj hl hd => ?_, update chain (some k) [], ?_, fun j nj hj hl => ?_⟩⟩
  · by_cases hji : j = k
    · subst hji
      rw [hself nj hj] at hl
      cases hl
    · rw [hother j hji] at hj
      exact h.dir j nj hj hl hd
  · have hhead : s'.head = update s.head (some k) 0 := by
      funext i
      cases i with
      | none => rfl
      | some j =>
        by_cases hji : j = k
        · subst hji
          rw [update_self, State.head]
          cases hn : s'.node j with
          | none => rfl
          | some nd' => simp [hself nd' hn]
        · rw [update_of_ne fun heq => hji (Option.some.inj heq), State.head, State.head]
          simp only [hother j hji]
    rw [htable, hhead]
    exact hnew
  · by_cases hji : j = k
    · subst hji
      rw [hself nj hj] at hl
      cases hl
    · rw [update_of_ne fun heq => hji (Option.some.inj heq)]
      rw [hother j hji] at hj
      exact hcache j nj hj hl

theorem dropEntry_node (s : State) (id : ℕ) : (s.dropEntry id).node =
    update s.node id ((s.node id).map fun nd => { nd with live := false }) := by
  rw [State.dropEntry]
  cases hnode : s.node id with
  | none => exact (update_eq_self_iff.mpr hnode.symm).symm
  | some nd => rfl

theorem dropEntry_of_ne {j : ℕ} (h : j ≠ id) : (s.dropEntry id).node j = s.node j := by
  rw [dropEntry_node, update_of_ne h]

theorem dropEntry_self (h : (s.dropEntry id).node id = some nd) : nd.live = false := by
  rw [dropEntry_node, update_self] at h
  obtain ⟨nd', -, rfl⟩ := Option.map_eq_some_iff.mp h
  rfl

theorem Inv.move {new : ℕ} (h : Inv s) (hnode : s.node id = some nd) (hlive : nd.live = true)
    (hnew : s.node new = none) (htable : s'.table = s.table) (hsize : s'.clusterSize = s.clusterSize)
    (hother : ∀ j, j ≠ id → j ≠ new → s'.node j = s.node j)
    (hself : ∀ nj, s'.node id = some nj → nj.live = false) (hmoved : s'.node new = some nd')
    (hlive' : nd'.live = true) (hstart : nd'.start = nd.start) (hdir : nd'.dir = nd.dir)
    (hplain : nd'.cache.Plain) (hfits : nd'.cache.FitsStart nd.start) : Inv s' := by
  obtain ⟨chain, hlayout, hcache⟩ := h.chains
  have hne : id ≠ new := by
    rintro rfl
    rw [hnode] at hnew
    cases hnew
  have hsome : (some id : Option ℕ) ≠ some new := fun heq => hne (Option.some.inj heq)
  have hlayout' := hlayout.move (i := some id) (head_none hnew) hsome
  rw [head_some hnode hlive] at hlayout'
  have hhead : s'.head = update (update s.head (some new) nd.start) (some id) 0 := by
    funext i
    cases i with
    | none => rfl
    | some j =>
      by_cases hji : j = id
      · subst hji
        rw [update_self, State.head]
        cases hn : s'.node j with
        | none => rfl
        | some nj => simp [hself nj hn]
      · rw [update_of_ne fun heq => hji (Option.some.inj heq)]
        by_cases hjn : j = new
        · subst hjn
          rw [update_self, head_some hmoved hlive', hstart]
        · rw [update_of_ne fun heq => hjn (Option.some.inj heq), State.head, State.head]
          simp only [hother j hji hjn]
  refine ⟨by rw [hsize]; exact h.clusterSize, fun j nj hj hl hd => ?_,
    update (update chain (some new) (chain (some id))) (some id) [], ?_,
    fun j nj hj hl => ?_⟩
  · by_cases hji : j = id
    · subst hji
      rw [hself nj hj] at hl
      cases hl
    · by_cases hjn : j = new
      · subst hjn
        rw [hmoved] at hj
        cases hj
        rw [hstart]
        exact h.dir id nd hnode hlive (hdir ▸ hd)
      · rw [hother j hji hjn] at hj
        exact h.dir j nj hj hl hd
  · rw [htable, hhead]
    exact hlayout'
  · by_cases hji : j = id
    · subst hji
      rw [hself nj hj] at hl
      cases hl
    · rw [update_of_ne fun heq => hji (Option.some.inj heq)]
      by_cases hjn : j = new
      · subst hjn
        rw [hmoved] at hj
        cases hj
        rw [update_self, hstart]
        have hchain := hlayout.isChain (some id)
        rw [head_some hnode hlive] at hchain
        exact hplain.ok hchain hfits
      · rw [update_of_ne fun heq => hjn (Option.some.inj heq)]
        rw [hother j hji hjn] at hj
        exact hcache j nj hj hl

end Mario.Fs.Fat.Clusters
