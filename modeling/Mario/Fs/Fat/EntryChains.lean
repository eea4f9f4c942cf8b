import Mario.Fs.Fat.FileRuns

/-!
# The entries of a FAT and its chains in a run

When every change of a first cluster reaches the disk the chains are those of the entries. A call that
fails must give back the clusters of a file that had none, and an allocation that finds clusters must
get them.
-/

namespace Mario.Fs.Fat.Clusters

open Mario.Lib Function

section Growth

variable {ι : Type*} {t : Table} {a : Answers} {head : ι → ℕ} {chain : ι → List ℕ} {i : ι}
  {previous n index : ℕ}

theorem scan_isSome (h : 0 < cells t.total fun k => t.entry (k + 2) == 0) : t.scan.isSome = true := by
  obtain ⟨k, hk, hzero⟩ := cells_pos.mp h
  have hentry : t.entry (k + 2) = 0 := by simpa using hzero
  rw [Table.scan, List.find?_isSome]
  refine ⟨k + 2, ?_, by simp [hentry]⟩
  rw [List.mem_append, List.mem_range'_1, List.mem_range'_1, Table.scanStart]
  split_ifs
  · omega
  · omega

/-- When a cluster is free and can be marked an allocation takes it. -/
theorem Layout.alloc_some (ha : a.Clean) (hmark : ∀ c, a.fat .mark c = .ok) (h : Layout t head chain)
    (hprevious : previous = (chain i).getLastD 0) (hfree : 0 < t.freeClusters) :
    ∃ c, t.scan = some c ∧ t.alloc a previous = (some c, t.taken previous c) := by
  rw [h.count] at hfree
  obtain ⟨c, hscan⟩ := Option.isSome_iff_exists.mp (scan_isSome hfree)
  obtain ⟨hvalid, -⟩ := scan_some hscan
  refine ⟨c, hscan, ?_⟩
  rcases alloc_cases (s := t) (w := previous) ha.mark ha.link with hnone | ⟨d, hd, hsome⟩
  · exfalso
    have hprev : ¬ (previous ≠ 0 ∧ ¬ t.Valid previous) := by
      rintro ⟨hne, hnot⟩
      refine hnot ((h.isChain i).used previous ?_).1
      rw [hprevious] at hne ⊢
      exact getLastD_mem hne
    have hfound := congrArg Prod.fst hnone
    rw [Table.alloc, if_neg hprev, hscan] at hfound
    simp only [Table.write, if_pos hvalid, hmark c] at hfound
    by_cases hzero : previous = 0
    · simp only [if_pos hzero] at hfound
      cases hfound
    · have hvalid' : Table.Valid { t with entry := update t.entry c fatEocMax } previous := by
        by_contra hnot
        exact hprev ⟨hzero, hnot⟩
      simp only [if_neg hzero, if_pos hvalid', ha.link previous] at hfound
      cases hfound
  · rw [hscan] at hd
    cases hd
    exact hsome

variable [DecidableEq ι]

/-- A chain gets all the clusters that are asked for when they are free. -/
theorem Layout.grow_length (ha : a.Clean) (hmark : ∀ c, a.fat .mark c = .ok) (h : Layout t head chain)
    (hprevious : previous = (chain i).getLastD 0) (hfree : n ≤ t.freeClusters) :
    (Table.grow a n t previous).1.length = n := by
  induction n generalizing t head chain previous with
  | zero => rfl
  | succ n ih =>
    obtain ⟨c, hscan, hsome⟩ := h.alloc_some ha hmark hprevious (by omega)
    obtain ⟨hvalid, hc⟩ := scan_some hscan
    have htaken := h.taken hvalid hc i hprevious
    have hle := count_le t
    have hcount := h.count
    have hsmall := h.small
    have hbad : fatBadCluster < 2 ^ 32 := by decide
    have hleft : n ≤ (t.taken previous c).freeClusters := by
      have hnew : (t.taken previous c).freeClusters = (t.freeClusters + 2 ^ 32 - 1) % 2 ^ 32 := rfl
      rw [hnew]
      omega
    have hlast : c = (update chain i (chain i ++ [c]) i).getLastD 0 := by
      rw [update_self, getLastD_append]
    rw [Table.grow, hsome]
    exact congrArg (· + 1) (ih htaken hlast hleft)

theorem Layout.clusterAtAlloc_ne_zero {w : ℕ} (ha : a.Clean) (hmark : ∀ c, a.fat .mark c = .ok)
    (h : Layout t head chain) (hi : head i = 0) (hfree : w + 1 ≤ t.freeClusters) : (t.clusterAtAlloc a 0 w).1 ≠ 0 := by
  have hnil := h.chain_eq_nil hi
  have hlast : 0 = (chain i).getLastD 0 := by rw [hnil, List.getLastD_nil]
  have hlength := h.grow_length ha hmark hlast hfree
  obtain ⟨hlayout, -, -⟩ := h.grow (n := w + 1) ha i hlast
  rw [if_pos hi, hnil, List.nil_append] at hlayout
  have hchain := hlayout.isChain i
  rw [update_self, update_self] at hchain
  rw [Table.clusterAtAlloc]
  simp only [if_true, hlength]
  rcases List.eq_nil_or_concat (Table.grow a (w + 1) t 0).1 with hempty | ⟨front, last, hcons⟩
  · rw [hempty] at hlength
    simp at hlength
  · rw [List.concat_eq_append] at hcons
    have hmem : last ∈ (Table.grow a (w + 1) t 0).1 := by
      rw [hcons]
      simp
    rw [hcons, getLastD_append]
    exact (hchain.used last hmem).1.pos

end Growth

variable {s s' : State} {t t' : Table} {a : Answers} {id : ℕ} {nd nd' : Node} {head : Option ℕ → ℕ}
  {chain : Option ℕ → List ℕ}

/-! ## The first cluster of a file -/

theorem rollback_start (a : Answers) (nd : Node) (t : Table) (keep : ℕ) :
    (rollback a nd t keep).1.start = if keep = 0 then 0 else nd.start := by
  rw [rollback]
  by_cases hkeep : keep = 0
  · rw [if_pos hkeep, if_pos hkeep]
  · rw [if_neg hkeep, if_neg hkeep]
    dsimp only
    split
    · rfl
    · split
      · split <;> rfl
      · rfl

theorem rollback_entryStart (a : Answers) (nd : Node) (t : Table) (keep : ℕ) :
    (rollback a nd t keep).1.entryStart = nd.entryStart := by
  rw [rollback]
  split
  · rfl
  · dsimp only
    split
    · rfl
    · split
      · split <;> rfl
      · rfl

theorem clustersOf_eq_zero {clusterSize size : ℕ} (hpos : 0 < clusterSize) :
    clustersOf clusterSize size = 0 ↔ size = 0 := by
  rw [clustersOf, Nat.div_eq_zero_iff]
  omega

theorem resize_size (a : Answers) (nd : Node) (t : Table) (needed : ℕ) :
    (resize a nd t needed).2.1.size = nd.size ∧ (resize a nd t needed).2.1.entryStart = nd.entryStart := by
  rw [resize]
  dsimp only
  split
  · split
    · split <;> exact ⟨rfl, rfl⟩
    · split
      · exact ⟨rfl, rfl⟩
      · split
        · exact ⟨rfl, rfl⟩
        · exact ⟨rfl, rfl⟩
        · split <;> exact ⟨rfl, rfl⟩
  · split <;> exact ⟨rfl, rfl⟩

/-- The first part of `fat_file_truncate` leaves the first cluster of a file that had one and keeps one,
and when it fails it leaves it in any case. -/
theorem Holds.resize_start {needed : ℕ} (ha : a.Clean) (h : Holds head chain id nd t)
    (hempty : nd.start = 0 → (∀ c, a.fat .mark c = .ok) ∧ needed ≤ t.freeClusters) :
    (Clusters.resize a nd t needed).2.1.start = nd.start ∨
      (Clusters.resize a nd t needed).1 = true ∧ (needed = 0 ∨ nd.start = 0) := by
  obtain ⟨l, hlayout, -, hchain, hwalk⟩ := h.walk
  rw [Clusters.resize]
  dsimp only
  rw [hwalk]
  obtain ⟨-, -, -, hsame, -, -⟩ := hlayout.clusterAtAlloc ha (some id) (needed - 1)
  rw [update_self] at hsame
  by_cases hless : needed < l.length
  · rw [if_pos hless]
    have hpos : nd.start ≠ 0 := by
      intro hzero
      rw [hzero] at hchain
      rw [hchain.eq_nil] at hless
      simp at hless
    by_cases hzero : needed = 0
    · rw [if_pos hzero]
      rcases hfree : t.freeChain a nd.start with ⟨_ | _, t'⟩
      · exact .inl rfl
      · exact .inr ⟨rfl, .inl hzero⟩
    · rw [if_neg hzero]
      left
      split
      · exact hsame hpos
      · split
        · rfl
        · rfl
        · split <;> rfl
  · rw [if_neg hless]
    by_cases hmore : l.length < needed
    · rw [if_pos hmore]
      by_cases hstart : nd.start = 0
      · right
        obtain ⟨hmark, hfree⟩ := hempty hstart
        have hhead : update head (some id) nd.start (some id) = 0 := by
          rw [update_self, hstart]
        have hfound := hlayout.clusterAtAlloc_ne_zero (w := needed - 1) ha hmark hhead (by omega)
        refine ⟨?_, .inr hstart⟩
        simpa [hstart] using hfound
      · exact .inl (hsame hstart)
    · rw [if_neg hmore]
      exact .inl rfl

/-- Filling a gap leaves the first cluster of a file that had one, and when it fails an empty file has
none again. -/
theorem Holds.zeroGap_start {clusterSize z : ℕ} (ha : a.Clean) (hpos : 0 < clusterSize)
    (h : Holds head chain id nd t) (hfresh : 0 < span clusterSize nd.size z → Fresh nd t) :
    (Clusters.zeroGap a clusterSize nd t z).2.1.entryStart = nd.entryStart ∧
      ((Clusters.zeroGap a clusterSize nd t z).1 = true → nd.start ≠ 0 →
        (Clusters.zeroGap a clusterSize nd t z).2.1.start = nd.start) ∧
      ((Clusters.zeroGap a clusterSize nd t z).1 = false → 0 < span clusterSize nd.size z ∧
        (nd.size = 0 → (Clusters.zeroGap a clusterSize nd t z).2.1.start = 0) ∧
        (nd.size ≠ 0 → nd.start ≠ 0 →
          (Clusters.zeroGap a clusterSize nd t z).2.1.start = nd.start)) := by
  rw [Clusters.zeroGap]
  dsimp only
  by_cases hn : span clusterSize nd.size z = 0
  · rw [hn, Clusters.touch, if_pos rfl]
    exact ⟨rfl, fun _ _ => rfl, fun hfalse => by cases hfalse⟩
  · have hspan := Nat.pos_of_ne_zero hn
    obtain ⟨-, -, hsame⟩ := h.touch (w := a.zero) ha (hfresh hspan) (span clusterSize nd.size z) (nd.size / clusterSize)
    split
    · exact ⟨rfl, fun _ hne => hsame hne, fun hfalse => by cases hfalse⟩
    · refine ⟨rollback_entryStart .., ?_, ?_⟩
      · intro hfalse
        cases hfalse
      refine fun _ => ⟨hspan, fun hsize => ?_, fun hsize hne => ?_⟩
      · rw [rollback_start, if_pos ((clustersOf_eq_zero hpos).mpr hsize)]
      · rw [rollback_start, if_neg (mt (clustersOf_eq_zero hpos).mp hsize)]
        exact hsame hne

/-- After `fat_file_truncate` the entry has the first cluster. -/
theorem Holds.truncate_start {clusterSize size : ℕ} (ha : a.Clean) (hpos : 0 < clusterSize)
    (h : Holds head chain id nd t) (hfresh : Fresh nd t)
    (hcut : 0 < clustersOf clusterSize size →
      clustersOf clusterSize size < (t.walk t.total nd.start).length → nd.cache.valid = true →
      nd.cache.start = nd.start → nd.cache.index < clustersOf clusterSize size)
    (hentry : nd.entryStart = nd.start) (hsize : nd.start = 0 ↔ nd.size = 0)
    (hempty : nd.start = 0 → (∀ c, a.fat .mark c = .ok) ∧ clustersOf clusterSize size ≤ t.freeClusters) :
    (Clusters.truncate a true clusterSize nd t size).1.entryStart =
      (Clusters.truncate a true clusterSize nd t size).1.start := by
  obtain ⟨hresize, hstart⟩ := h.resize ha hfresh (clustersOf clusterSize size) hcut
  have hkeep := h.resize_start ha hempty
  have hsame := resize_size a nd t (clustersOf clusterSize size)
  rw [Clusters.truncate]
  rcases hr : Clusters.resize a nd t (clustersOf clusterSize size) with ⟨_ | _, nd₁, t₁⟩
  · rw [hr] at hkeep hsame
    rcases hkeep with heq | ⟨hfalse, -⟩
    · exact hsame.2.trans (hentry.trans heq.symm)
    · cases hfalse
  · rw [hr] at hkeep hsame hresize hstart
    dsimp only at hkeep hsame hresize hstart ⊢
    have hneeded : 0 < span clusterSize nd₁.size size → clustersOf clusterSize size ≠ 0 := by
      intro hspan hzero
      rw [clustersOf_eq_zero hpos] at hzero
      rw [span, hzero] at hspan
      simp at hspan
    obtain ⟨hentry', -, hfail⟩ := hresize.zeroGap_start (z := size) ha hpos fun hspan hzero =>
      absurd hzero (hstart rfl (hneeded hspan))
    rcases hz : Clusters.zeroGap a clusterSize nd₁ t₁ size with ⟨_ | _, nd₂, t₂⟩
    · rw [hz] at hentry' hfail
      obtain ⟨hspan, hnone, hsome⟩ := hfail rfl
      dsimp only at hentry' hnone hsome ⊢
      rw [hentry', hsame.2, hentry]
      rw [hsame.1] at hnone hsome
      by_cases hzero : nd.size = 0
      · rw [hnone hzero, hsize.mpr hzero]
      · have hne : nd.start ≠ 0 := mt hsize.mp hzero
        have heq : nd₁.start = nd.start := by
          rcases hkeep with heq | ⟨-, hcase⟩
          · exact heq
          · rcases hcase with hcase | hcase
            · exact absurd hcase (hneeded hspan)
            · exact absurd hcase hne
        rw [hsome hzero (by rw [heq]; exact hne), heq]
    · simp only [if_true]

theorem Holds.write_start {clusterSize u v : ℕ} (ha : a.Clean) (hpos : 0 < clusterSize)
    (h : Holds head chain id nd t) (hfresh : Fresh nd t) (hentry : nd.entryStart = nd.start)
    (hsize : nd.start = 0 ↔ nd.size = 0) :
    (Clusters.write a true clusterSize nd t u v).1.entryStart =
      (Clusters.write a true clusterSize nd t u v).1.start := by
  rw [Clusters.write]
  by_cases hcount : v = 0
  · rw [if_pos hcount]
    exact hentry
  · rw [if_neg hcount]
    dsimp only
    obtain ⟨hentry', hdone, hfail⟩ := h.zeroGap_start (z := u) ha hpos fun _ => hfresh
    obtain ⟨hzero, hsame⟩ := h.zeroGap (z := u) (y := clusterSize) ha fun _ => hfresh
    rcases hz : Clusters.zeroGap a clusterSize nd t u with ⟨_ | _, nd₁, t₁⟩
    · rw [hz] at hentry' hfail
      obtain ⟨-, hnone, hsome⟩ := hfail rfl
      dsimp only at hentry' hnone hsome ⊢
      rw [hentry', hentry]
      by_cases hempty : nd.size = 0
      · rw [hnone hempty, hsize.mpr hempty]
      · rw [hsome hempty (mt hsize.mp hempty)]
    · rw [hz] at hentry' hdone hzero hsame
      dsimp only at hentry' hdone hzero hsame ⊢
      have hfresh₁ : Fresh nd₁ t₁ := by
        intro hnone
        obtain ⟨hold, heq⟩ := hsame rfl hnone
        cases heq
        exact hfresh hold
      obtain ⟨-, -, hkeep⟩ := hzero.touch (w := a.data) ha hfresh₁ (span clusterSize u (u + v)) (u / clusterSize)
      split
      · rw [rollback_entryStart, rollback_start]
        dsimp only
        rw [hentry', hentry]
        by_cases hempty : nd.size = 0
        · rw [if_pos ((clustersOf_eq_zero hpos).mpr hempty), hsize.mpr hempty]
        · have hne : nd.start ≠ 0 := mt hsize.mp hempty
          have heq := hdone rfl hne
          rw [if_neg (mt (clustersOf_eq_zero hpos).mp hempty), hkeep (by rw [heq]; exact hne), heq]
      · simp only [if_true]

/-! ## Runs -/

/-- The invariant, and the entries have the first clusters. -/
structure EntryInv (s : State) : Prop extends Inv s where
  entry : ∀ id nd, s.node id = some nd → nd.live = true → nd.entryStart = nd.start

theorem EntryInv.setNode (h : ∀ id nd, s.node id = some nd → nd.live = true → nd.entryStart = nd.start)
    (hnew : nd.live = true → nd.entryStart = nd.start) {j : ℕ} {nj : Node}
    (hj : ((s.setTable t).setNode id nd).node j = some nj) (hlive : nj.live = true) : nj.entryStart = nj.start := by
  by_cases hji : j = id
  · subst hji
    simp only [State.setNode, update_self, Option.some.injEq] at hj
    subst hj
    exact hnew hlive
  · simp only [State.setNode, State.setTable, update_of_ne hji] at hj
    exact h j nj hj hlive

theorem EntryInv.dropEntry
    (h : ∀ id nd, s.node id = some nd → nd.live = true → nd.entryStart = nd.start) (id : ℕ) {j : ℕ}
    {nj : Node} (hj : (s.dropEntry id).node j = some nj) (hlive : nj.live = true) : nj.entryStart = nj.start := by
  by_cases hji : j = id
  · subst hji
    rw [dropEntry_self hj] at hlive
    cases hlive
  · rw [dropEntry_of_ne hji] at hj
    exact h j nj hj hlive

theorem Inv.holds (h : Inv s) (hnode : s.node id = some nd) (hlive : nd.live = true) :
    ∃ chain, Holds s.head chain id nd s.table := by
  obtain ⟨chain, hlayout, hcache⟩ := h.chains
  have hstart := head_some hnode hlive
  refine ⟨chain, rfl, chain (some id), ?_, hcache id nd hnode hlive⟩
  rwa [← hstart, update_eq_self, update_eq_self]

theorem EntryInv.step_entry {l : Label} (h : EntryInv s) (hgood : Strict s l) (hstep : exec s l = some s') :
    ∀ id nd, s'.node id = some nd → nd.live = true → nd.entryStart = nd.start := by
  obtain ⟨⟨-, hgood⟩, hstrict⟩ := hgood
  intro j nj hj hl
  cases l with
  | read id index =>
    rw [exec] at hstep
    split at hstep
    · rename_i nd hnode
      cases hstep
      refine EntryInv.setNode (t := s.table) h.entry ?_ hj hl
      exact fun hlive => h.entry id nd hnode hlive
    · cases hstep
  | truncate id size a inode =>
    rw [exec] at hstep
    split at hstep
    · rename_i nd hnode
      split_ifs at hstep with hdir
      cases hstep
      obtain ⟨hclean, hrest⟩ := hgood
      obtain ⟨-, hlive, hfirst, hcut⟩ := hrest nd hnode
      obtain ⟨rfl, hempty⟩ := hstrict
      obtain ⟨hsize, hroom⟩ := hempty nd hnode
      obtain ⟨chain, hholds⟩ := h.holds hnode hlive
      have hstart := hholds.truncate_start hclean h.clusterSize hfirst hcut (h.entry id nd hnode hlive) hsize hroom
      exact EntryInv.setNode h.entry (fun _ => hstart) hj hl
    · cases hstep
  | write id pos count a inode =>
    rw [exec] at hstep
    split at hstep
    · rename_i nd hnode
      split_ifs at hstep with hdir
      cases hstep
      obtain ⟨hclean, hrest⟩ := hgood
      obtain ⟨-, hlive, hfirst⟩ := hrest nd hnode
      obtain ⟨rfl, hsize⟩ := hstrict
      obtain ⟨chain, hholds⟩ := h.holds hnode hlive
      have hstart := hholds.write_start (u := pos) (v := count) hclean h.clusterSize hfirst
        (h.entry id nd hnode hlive) (hsize nd hnode)
      exact EntryInv.setNode h.entry (fun _ => hstart) hj hl
    · cases hstep
  | create dir id cache a need added =>
    rw [exec] at hstep
    split at hstep
    · split_ifs at hstep
      split at hstep
      · cases hstep
        exact h.entry j nj hj hl
      · cases hstep
        exact EntryInv.setNode h.entry (fun _ => rfl) hj hl
    · cases hstep
  | mkdir dir id cache a need added =>
    rw [exec] at hstep
    split at hstep
    · split_ifs at hstep
      split at hstep
      · cases hstep
        exact h.entry j nj hj hl
      · split at hstep
        · split at hstep
          · cases hstep
            exact EntryInv.setNode h.entry (fun _ => rfl) hj hl
          · cases hstep
            exact h.entry j nj hj hl
          · cases hstep
            exact EntryInv.setNode h.entry (fun _ => rfl) hj hl
        · cases hstep
          exact h.entry j nj hj hl
    · cases hstep
  | delete id a again =>
    rw [exec] at hstep
    split at hstep
    · split at hstep
      · cases hstep
        exact EntryInv.dropEntry h.entry id hj hl
      · cases hstep
        cases again with
        | true => exact h.entry j nj hj hl
        | false => exact EntryInv.dropEntry h.entry id hj hl
    · cases hstep
  | rename id new target newDir cache a need added again inode =>
    obtain ⟨-, -, -, hagain, hinode, -, -⟩ := hgood
    subst hagain hinode
    rw [exec.eq_def] at hstep
    dsimp only at hstep
    split at hstep
    · rename_i nd dirNode hentry hnew hdir
      by_cases hcond : cache.Plain ∧ target ≠ some id ∧ target ≠ some newDir ∧
          (target = none ∨ (target.bind s.entry).isSome)
      swap
      · rw [if_neg hcond] at hstep
        cases hstep
      rw [if_pos hcond] at hstep
      rcases target with _ | u
      case' none => have htarget := h.entry
      case' some => have htarget := fun id nd => @EntryInv.dropEntry _ h.entry u id nd
      all_goals
        dsimp only at hstep
        have hdropped := fun j nj => @EntryInv.dropEntry _ htarget id j nj
        rcases hadd : Clusters.addEntry a s.table dirNode need added with ⟨r, t⟩
        rw [hadd] at hstep
        cases r with
        | failed =>
          simp only [if_true, Option.some.injEq] at hstep
          subst hstep
          exact h.entry j nj hj hl
        | late =>
          simp only [if_true, Option.some.injEq] at hstep
          subst hstep
          refine EntryInv.setNode h.entry ?_ hj hl
          exact fun _ => rfl
        | ok =>
          simp only [if_true] at hstep
          split at hstep
          · cases hstep
            exact EntryInv.setNode hdropped (fun _ => rfl) hj hl
          · cases hstep
            exact EntryInv.setNode hdropped (fun _ => rfl) hj hl
    · cases hstep
  | relocate id new cache =>
    rw [exec] at hstep
    split at hstep
    · split_ifs at hstep
      cases hstep
      rw [← dropEntry_setTable] at hj
      refine EntryInv.setNode (fun j nj => EntryInv.dropEntry h.entry id) ?_ hj hl
      exact fun _ => rfl
    · cases hstep
  | deleteFails id gone twin =>
    obtain ⟨rfl, rfl⟩ := hgood
    rw [exec] at hstep
    split at hstep
    · cases hstep
      exact h.entry j nj hj hl
    · cases hstep
  | evict id inode =>
    obtain ⟨nd, -, rfl⟩ := Option.map_eq_some_iff.mp hstep
    refine EntryInv.setNode (t := s.table) h.entry ?_ hj hl
    exact fun _ => rfl

theorem EntryInv.step {l : Label} (h : EntryInv s) (hstep : Guarded Strict Step s l s') : EntryInv s' where
  toInv := h.toInv.step ⟨hstep.1.1, hstep.2⟩
  entry := h.step_entry hstep.1 hstep.2

theorem EntryInv.entryHead (h : EntryInv s) (id : ℕ) : s.entryHead id = s.head (some id) := by
  rw [State.entryHead, State.head]
  cases hnode : s.node id with
  | none => rfl
  | some nd =>
    dsimp only
    by_cases hlive : nd.live = true
    · rw [if_pos hlive, if_pos hlive, h.entry id nd hnode hlive]
    · rw [if_neg hlive, if_neg hlive]

theorem EntryInv.sound (h : EntryInv s) : Sound s := by
  obtain ⟨chain, hlayout, -⟩ := h.chains
  refine ⟨⟨fun id => chain (some id), fun id => ?_, fun c hvalid hc => ?_⟩, hlayout.count⟩
  · have hchain := hlayout.isChain (some id)
    rw [h.entryHead]
    exact ⟨hchain, hchain.linked.nodup⟩
  · obtain ⟨i, hi⟩ := hlayout.cover c hvalid hc
    cases i with
    | none =>
      rw [hlayout.chain_eq_nil rfl] at hi
      cases hi
    | some id =>
      refine ⟨id, hi, fun j hj => ?_⟩
      by_contra hne
      exact hlayout.apart (some j) (some id) (fun heq => hne (Option.some.inj heq)) hj hi

end Mario.Fs.Fat.Clusters
