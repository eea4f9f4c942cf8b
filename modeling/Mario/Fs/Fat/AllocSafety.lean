import Mario.Fs.Fat.Alloc

/-!
# The chains of a FAT

Owners have chains that share no cluster, every cluster that is not free is in one of them, and the
count of the free clusters is right. Allocating, freeing and cutting keep this.
-/

namespace Mario.Fs.Fat.Clusters

open Mario.Lib Function

/-- The next cluster, or zero at the end of a chain. -/
def Table.succ (s : Table) (c : ℕ) : ℕ :=
  if fatEocMin ≤ s.entry c ∧ s.entry c ≤ fatEocMax then 0 else s.entry c

/-- A list is the chain that starts at a cluster, or it is empty and the cluster is zero. -/
structure Chain (s : Table) (head : ℕ) (l : List ℕ) : Prop where
  linked : Linked s.succ 0 head l
  used : ∀ c ∈ l, s.Valid c ∧ s.entry c ≠ 0

/-- The chains of some owners. -/
structure Layout {ι : Type*} (s : Table) (head : ι → ℕ) (chain : ι → List ℕ) : Prop where
  small : s.total + 2 ≤ fatBadCluster
  isChain : ∀ i, Chain s (head i) (chain i)
  apart : ∀ i j, i ≠ j → (chain i).Disjoint (chain j)
  cover : ∀ c, s.Valid c → s.entry c ≠ 0 → ∃ i, c ∈ chain i
  count : s.freeClusters = cells s.total fun k => s.entry (k + 2) == 0

section Lemmas

variable {ι : Type*} [DecidableEq ι] {s s' : Table} {a : Answers} {c d start previous n : ℕ} {i j : ι}
  {head : ι → ℕ} {chain : ι → List ℕ} {l l' : List ℕ}

theorem Table.Valid.pos (h : s.Valid c) : c ≠ 0 := by
  have := h.1
  omega

theorem Table.Valid.lt (h : s.Valid c) (hsmall : s.total + 2 ≤ fatBadCluster) : c < fatBadCluster := by
  obtain ⟨h2, hlt⟩ := h
  omega

theorem lt_fatEocMin (h : c < fatBadCluster) : ¬ (fatEocMin ≤ c ∧ c ≤ fatEocMax) := by
  have : fatBadCluster < fatEocMin := by decide
  omega

theorem Chain.next (h : Chain s start l) (hsmall : s.total + 2 ≤ fatBadCluster) (hc : c ∈ l) :
    s.next c = if s.succ c = 0 then .last else .cluster (s.succ c) := by
  obtain ⟨hvalid, hne⟩ := h.used c hc
  rw [Table.next, if_pos hvalid]
  dsimp only
  by_cases heoc : fatEocMin ≤ s.entry c ∧ s.entry c ≤ fatEocMax
  · have hsucc : s.succ c = 0 := if_pos heoc
    rw [if_pos heoc, if_pos hsucc]
  · have hsucc : s.succ c = s.entry c := if_neg heoc
    have hmem := h.linked.next_mem hc (by rw [hsucc]; exact hne)
    rw [hsucc] at hmem
    have hnext := (h.used _ hmem).1
    have hlt := hnext.lt hsmall
    obtain ⟨h2, htotal⟩ := hnext
    rw [if_neg heoc, hsucc, if_neg hne, if_neg]
    omega

theorem Chain.eq_nil (h : Chain s 0 l) : l = [] := h.linked.eq_nil

theorem Chain.head_eq_zero (h : Chain s start []) : start = 0 := h.linked

theorem Chain.length_le (h : Chain s start l) : l.length ≤ s.total := by
  have hmap : (l.map fun c => c - 2).length ≤ s.total := by
    refine length_le_of_nodup ?_ fun b hb => ?_
    · refine h.linked.nodup.map_on fun x hx y hy hxy => ?_
      have hx2 := (h.used x hx).1.1
      have hy2 := (h.used y hy).1.1
      omega
    · obtain ⟨x, hx, rfl⟩ := List.mem_map.mp hb
      exact (h.used x hx).1.2
  simpa using hmap

theorem Chain.congr (h : Chain s start l) (htotal : s'.total = s.total)
    (hentry : ∀ c ∈ l, s'.entry c = s.entry c) : Chain s' start l where
  linked := h.linked.congr fun c hc => by rw [Table.succ, Table.succ, hentry c hc]
  used c hc := by
    obtain ⟨hvalid, hne⟩ := h.used c hc
    rw [hentry c hc]
    exact ⟨⟨hvalid.1, by rw [htotal]; exact hvalid.2⟩, hne⟩

/-! ## Allocation -/

theorem scan_some (h : s.scan = some c) : s.Valid c ∧ s.entry c = 0 := by
  have hentry : s.entry c = 0 := by simpa using List.find?_some h
  refine ⟨?_, hentry⟩
  have hmem := List.mem_of_find?_eq_some h
  rw [List.mem_append, List.mem_range'_1, List.mem_range'_1] at hmem
  rw [Table.scanStart] at hmem
  rw [Table.Valid]
  split_ifs at hmem with hstart
  · omega
  · omega

/-- The FAT when a cluster is taken. -/
def Table.taken (s : Table) (previous c : ℕ) : Table :=
  { s with
    entry := if previous = 0 then update s.entry c fatEocMax
      else update (update s.entry c fatEocMax) previous c
    nextFree := if s.total ≤ c + 1 - 2 then 2 else c + 1
    freeClusters := (s.freeClusters + 2 ^ 32 - 1) % 2 ^ 32 }

/-- An allocation takes the cluster of the scan and leaves everything when it fails, unless a write
fails behind the point of no return. -/
theorem alloc_cases {w : ℕ} (hmark : ∀ c, a.fat .mark c ≠ .after) (hlink : ∀ c, a.fat .link c = .ok) :
    s.alloc a w = (none, s) ∨ ∃ c, s.scan = some c ∧ s.alloc a w = (some c, s.taken w c) := by
  rw [Table.alloc]
  by_cases hprevious : w ≠ 0 ∧ ¬ s.Valid w
  · rw [if_pos hprevious]
    exact .inl rfl
  · rw [if_neg hprevious]
    cases hscan : s.scan with
    | none => exact .inl rfl
    | some c =>
      obtain ⟨hvalid, -⟩ := scan_some hscan
      cases hans : a.fat .mark c with
      | after => exact absurd hans (hmark c)
      | before =>
        left
        simp only [Table.write, if_pos hvalid, hans]
      | ok =>
        refine .inr ⟨c, rfl, ?_⟩
        simp only [Table.write, if_pos hvalid, hans]
        by_cases hzero : w = 0
        · simp only [if_pos hzero, Table.taken]
        · have hvalid' : s.Valid w := by
            by_contra hnot
            exact hprevious ⟨hzero, hnot⟩
          have hvalid'' : Table.Valid { s with entry := update s.entry c fatEocMax } w :=
            hvalid'
          simp only [if_neg hzero, if_pos hvalid'', hlink w, Table.taken]

theorem taken_succ (hc : c < fatBadCluster) (hne : previous ≠ c) :
    (s.taken previous c).succ = if previous = 0 then update s.succ c 0
      else update (update s.succ c 0) previous c := by
  have hself : fatEocMin ≤ fatEocMax ∧ fatEocMax ≤ fatEocMax := by decide
  funext d
  by_cases hzero : previous = 0
  · simp only [Table.succ, Table.taken, if_pos hzero]
    by_cases hd : d = c
    · subst hd
      rw [update_self, update_self, if_pos hself]
    · rw [update_of_ne hd, update_of_ne hd]
      rfl
  · simp only [Table.succ, Table.taken, if_neg hzero]
    by_cases hd : d = previous
    · subst hd
      rw [update_self, update_self, if_neg (lt_fatEocMin hc)]
    · rw [update_of_ne hd, update_of_ne hd]
      by_cases hdc : d = c
      · subst hdc
        rw [update_self, update_self, if_pos hself]
      · rw [update_of_ne hdc, update_of_ne hdc]
        rfl

theorem count_change {e : ℕ → ℕ} (hvalid : s.Valid c) (he : ∀ d, d ≠ c → (e d = 0 ↔ s.entry d = 0)) :
    (cells s.total fun k => e (k + 2) == 0) + (s.entry c == 0).toNat =
      (cells s.total fun k => s.entry (k + 2) == 0) + (e c == 0).toNat := by
  have hcell : c - 2 + 2 = c := by
    have := hvalid.1
    omega
  have hchange := cells_change (p := fun k => s.entry (k + 2) == 0) (q := fun k => e (k + 2) == 0)
    hvalid.2 fun m hm => by
      have hiff := he (m + 2) (by omega)
      by_cases hz : s.entry (m + 2) = 0
      · simp [hz, hiff.mpr hz]
      · simp [hz, mt hiff.mp hz]
  rw [hcell] at hchange
  exact hchange

theorem count_le (s : Table) : (cells s.total fun k => s.entry (k + 2) == 0) ≤ s.total := by
  have hle := List.countP_le_length (p := fun k => s.entry (k + 2) == 0) (l := List.range s.total)
  rwa [List.length_range] at hle

omit [DecidableEq ι] in
theorem Layout.chain_eq_nil (h : Layout s head chain) (hi : head i = 0) : chain i = [] := by
  have hchain := h.isChain i
  rw [hi] at hchain
  exact hchain.eq_nil

omit [DecidableEq ι] in
theorem Layout.not_mem_of_free (h : Layout s head chain) (hc : s.entry c = 0) (i : ι) :
    c ∉ chain i := fun hmem => ((h.isChain i).used c hmem).2 hc

theorem Chain.taken (h : Chain s start l) (hsmall : s.total + 2 ≤ fatBadCluster) (hvalid : s.Valid c)
    (hc : s.entry c = 0) (hprevious : previous = l.getLastD 0) :
    Chain (s.taken previous c) (if start = 0 then c else start) (l ++ [c]) := by
  have hcl : c ∉ l := fun hmem => (h.used c hmem).2 hc
  have hlt := hvalid.lt hsmall
  have hne : previous ≠ c := by
    rw [hprevious]
    intro heq
    rcases List.eq_nil_or_concat l with rfl | ⟨front, last, rfl⟩
    · exact hvalid.pos heq.symm
    · simp only [List.concat_eq_append, List.getLastD_eq_getLast?, List.getLast?_append,
        List.getLast?_singleton, Option.some_or, Option.getD_some] at heq
      exact hcl (by simp [heq])
  have hsucc := taken_succ (s := s) hlt hne
  have hend : (s.taken previous c).succ c = 0 := by
    rw [hsucc]
    by_cases hzero : previous = 0
    · rw [if_pos hzero, update_self]
    · rw [if_neg hzero, update_of_ne (Ne.symm hne), update_self]
  have hlast : Linked (s.taken previous c).succ 0 c [c] := ⟨rfl, hvalid.pos, hend⟩
  refine ⟨?_, fun d hd => ?_⟩
  · rcases List.eq_nil_or_concat l with rfl | ⟨front, last, rfl⟩
    · rw [if_pos h.head_eq_zero]
      exact hlast
    · rw [List.concat_eq_append] at h hcl hprevious ⊢
      have hlastD : previous = last := by
        simpa [List.getLastD_eq_getLast?] using hprevious
      subst hlastD
      have hpos : previous ≠ 0 := (h.used previous (by simp)).1.pos
      have hstart : start ≠ 0 := by
        intro hzero
        rw [hzero] at h
        have := h.eq_nil
        simp at this
      have hfront : previous ∉ front := by
        intro hmem
        exact (List.nodup_append.mp h.linked.nodup).2.2 previous hmem previous (by simp) rfl
      have hcongr : Leads (update s.succ c 0) start (front ++ [previous]) 0 := by
        refine h.linked.leads.congr fun d hd => update_of_ne ?_ _ _
        rintro rfl
        exact hcl hd
      have hleads := hcongr.redirect hfront c
      rw [if_neg hpos] at hsucc
      rw [← hsucc] at hleads
      rw [if_neg hstart]
      exact hleads.linked h.linked.null_not_mem hlast
  · have hentry : (s.taken previous c).entry d ≠ 0 := by
      simp only [Table.taken]
      by_cases hzero : previous = 0
      · rw [if_pos hzero]
        by_cases hdc : d = c
        · rw [hdc, update_self]
          decide
        · rw [update_of_ne hdc]
          exact (h.used d (by simpa [hdc] using hd)).2
      · rw [if_neg hzero]
        by_cases hdp : d = previous
        · rw [hdp, update_self]
          exact hvalid.pos
        · rw [update_of_ne hdp]
          by_cases hdc : d = c
          · rw [hdc, update_self]
            decide
          · rw [update_of_ne hdc]
            exact (h.used d (by simpa [hdc] using hd)).2
    refine ⟨?_, hentry⟩
    rcases List.mem_append.mp hd with hmem | hmem
    · exact (h.used d hmem).1
    · rw [List.mem_singleton.mp hmem]
      exact hvalid

theorem getLastD_mem {l : List ℕ} (h : l.getLastD 0 ≠ 0) : l.getLastD 0 ∈ l := by
  rcases List.eq_nil_or_concat l with rfl | ⟨front, last, rfl⟩
  · exact absurd rfl h
  · simp [List.getLastD_eq_getLast?]

theorem taken_entry_ne (hdc : d ≠ c) (hdp : d ≠ previous) : (s.taken previous c).entry d = s.entry d := by
  simp only [Table.taken]
  split_ifs
  · exact update_of_ne hdc _ _
  · rw [update_of_ne hdp, update_of_ne hdc]

theorem Layout.taken (h : Layout s head chain) (hvalid : s.Valid c) (hc : s.entry c = 0) (i : ι)
    (hprevious : previous = (chain i).getLastD 0) :
    Layout (s.taken previous c) (update head i (if head i = 0 then c else head i))
      (update chain i (chain i ++ [c])) := by
  have hother : ∀ j ≠ i, ∀ d ∈ chain j, d ≠ c ∧ d ≠ previous := by
    intro j hj d hd
    refine ⟨?_, ?_⟩
    · rintro rfl
      exact h.not_mem_of_free hc j hd
    · rintro rfl
      have hpos := ((h.isChain j).used _ hd).1.pos
      have hmem : d ∈ chain i := by
        rw [hprevious] at hpos ⊢
        exact getLastD_mem hpos
      exact h.apart j i hj hd hmem
  have hprevused : previous ≠ 0 → s.Valid previous ∧ s.entry previous ≠ 0 := by
    intro hpos
    refine (h.isChain i).used previous ?_
    rw [hprevious] at hpos ⊢
    exact getLastD_mem hpos
  refine ⟨h.small, fun j => ?_, fun j k hjk => ?_, fun d hd hne => ?_, ?_⟩
  · by_cases hj : j = i
    · subst hj
      rw [update_self, update_self]
      exact (h.isChain j).taken h.small hvalid hc hprevious
    · rw [update_of_ne hj, update_of_ne hj]
      refine (h.isChain j).congr rfl fun d hd => ?_
      exact taken_entry_ne (hother j hj d hd).1 (hother j hj d hd).2
  · by_cases hj : j = i
    · subst hj
      rw [update_self, update_of_ne (Ne.symm hjk), List.disjoint_append_left]
      refine ⟨h.apart j k hjk, List.singleton_disjoint.mpr (h.not_mem_of_free hc k)⟩
    · rw [update_of_ne hj]
      by_cases hk : k = i
      · subst hk
        rw [update_self, List.disjoint_append_right]
        exact ⟨h.apart j k hjk, List.disjoint_singleton.mpr (h.not_mem_of_free hc j)⟩
      · rw [update_of_ne hk]
        exact h.apart j k hjk
  · by_cases hdc : d = c
    · exact ⟨i, by rw [update_self, hdc]; simp⟩
    · have hold : s.entry d ≠ 0 := by
        by_cases hdp : d = previous
        · rw [hdp]
          by_cases hzero : previous = 0
          · rw [hdp, hzero] at hd
            exact absurd rfl hd.pos
          · exact (hprevused hzero).2
        · rwa [taken_entry_ne hdc hdp] at hne
      obtain ⟨j, hj⟩ := h.cover d hd hold
      by_cases hji : j = i
      · exact ⟨i, by rw [update_self, ← hji]; exact List.mem_append_left _ hj⟩
      · exact ⟨j, by rwa [update_of_ne hji]⟩
  · have hchange := count_change (s := s) (c := c) (e := (s.taken previous c).entry) hvalid
      fun d hd => by
        by_cases hdp : d = previous
        · by_cases hzero : previous = 0
          · simp only [Table.taken, if_pos hzero, update_of_ne hd]
          · rw [hdp]
            simp only [Table.taken, if_neg hzero, update_self]
            exact ⟨fun h => absurd h hvalid.pos, fun h => absurd h (hprevused hzero).2⟩
        · rw [taken_entry_ne hd hdp]
    have hnew : (s.taken previous c).entry c ≠ 0 := by
      simp only [Table.taken]
      split_ifs with hzero
      · rw [update_self]
        decide
      · by_cases hcp : c = previous
        · rw [← hcp, update_self]
          exact hvalid.pos
        · rw [update_of_ne hcp, update_self]
          decide
    have hle := count_le s
    have hsmall := h.small
    have hcount := h.count
    have hbad : fatBadCluster < 2 ^ 32 := by decide
    have htrue : (s.entry c == 0).toNat = 1 := by rw [hc]; rfl
    have hfalse : ((s.taken previous c).entry c == 0).toNat = 0 := by simp [hnew]
    rw [htrue, hfalse] at hchange
    have hfree : (s.taken previous c).freeClusters = (s.freeClusters + 2 ^ 32 - 1) % 2 ^ 32 := rfl
    have htotal : (s.taken previous c).total = s.total := rfl
    rw [hfree, htotal]
    omega

/-- The writes that no error path undoes are done: only marking a cluster and cutting a chain can fail,
and then the entry is the old one. -/
structure Answers.Clean (a : Answers) : Prop where
  mark : ∀ c, a.fat .mark c ≠ .after
  link : ∀ c, a.fat .link c = .ok
  cut : ∀ c, a.fat .cut c ≠ .after
  free : ∀ c, a.fat .free c = .ok

theorem getLastD_append (l : List ℕ) (c d : ℕ) : (l ++ [c]).getLastD d = c := by
  simp [List.getLastD_eq_getLast?]

theorem Layout.grow {w : ℕ} (ha : a.Clean) (h : Layout s head chain) (i : ι)
    (hprevious : w = (chain i).getLastD 0) : Layout (Table.grow a n s w).2
        (update head i (if head i = 0 then (Table.grow a n s w).1.headD 0 else head i))
        (update chain i (chain i ++ (Table.grow a n s w).1)) ∧
      (Table.grow a n s w).1.length ≤ n ∧
      (0 < n → (Table.grow a n s w).1 ≠ [] → some ((Table.grow a n s w).1.headD 0) = s.scan) := by
  induction n generalizing s head chain w with
  | zero =>
    have hsame : (if head i = 0 then 0 else head i) = head i := by
      split_ifs with hzero
      · exact hzero.symm
      · rfl
    simp only [Table.grow, List.headD_nil, List.append_nil, hsame, update_eq_self]
    exact ⟨h, Nat.le_refl 0, by omega⟩
  | succ n ih =>
    rcases alloc_cases (s := s) (w := w) ha.mark ha.link with hnone | ⟨c, hscan, hsome⟩
    · have hsame : (if head i = 0 then 0 else head i) = head i := by
        split_ifs with hzero
        · exact hzero.symm
        · rfl
      simp only [Table.grow, hnone, List.headD_nil, List.append_nil, hsame, update_eq_self]
      exact ⟨h, Nat.zero_le _, fun _ hne => absurd rfl hne⟩
    · obtain ⟨hvalid, hc⟩ := scan_some hscan
      have htaken := h.taken hvalid hc i hprevious
      obtain ⟨hlayout, hlength, -⟩ := ih htaken (w := c) (by
        rw [update_self, getLastD_append])
      have hhead : (if head i = 0 then c else head i) ≠ 0 := by
        split_ifs with hzero
        · exact hvalid.pos
        · exact hzero
      simp only [update_self, update_idem, if_neg hhead] at hlayout
      simp only [Table.grow, hsome, List.headD_cons]
      refine ⟨?_, by simp only [List.length_cons]; omega, fun _ _ => hscan.symm⟩
      rwa [List.append_cons]

/-! ## Freeing -/

/-- The FAT when an entry is written. -/
def Table.put (s : Table) (c value : ℕ) : Table := { s with entry := update s.entry c value }

theorem write_ok {w : Write} {value : ℕ} (hvalid : s.Valid c) (hans : a.fat w c = .ok) :
    s.write a w c value = (true, s.put c value) := by
  rw [Table.write, if_pos hvalid]
  simp only [hans]
  rfl

theorem Layout.pop (h : Layout s head chain) (hchain : chain i = c :: l) :
    Layout (s.put c 0).count (update head i (s.succ c)) (update chain i l) ∧ head i = c := by
  have hi := h.isChain i
  rw [hchain] at hi
  obtain ⟨hhead, -, hrest⟩ := hi.linked
  have hvalid := (hi.used c (by simp)).1
  have hused := (hi.used c (by simp)).2
  have hcl : c ∉ l := (List.nodup_cons.mp hi.linked.nodup).1
  have hentry : ∀ d, d ≠ c → (s.put c 0).count.entry d = s.entry d := by
    intro d hd
    have hput : (s.put c 0).entry d = s.entry d := update_of_ne hd _ _
    rw [Table.count]
    split_ifs
    · exact hput
    · exact hput
  have hzero : (s.put c 0).count.entry c = 0 := by
    have hput : (s.put c 0).entry c = 0 := update_self _ _ _
    rw [Table.count]
    split_ifs
    · exact hput
    · exact hput
  have htotal : (s.put c 0).count.total = s.total := by
    rw [Table.count]
    split_ifs <;> rfl
  have hsub : ∀ j, ∀ d ∈ update chain i l j, d ≠ c := by
    rintro j d hd rfl
    by_cases hj : j = i
    · subst hj
      rw [update_self] at hd
      exact hcl hd
    · rw [update_of_ne hj] at hd
      exact h.apart j i hj hd (by rw [hchain]; simp)
  refine ⟨⟨by rw [htotal]; exact h.small, fun j => ?_, fun j k hjk => ?_, fun d hd hne => ?_, ?_⟩, hhead⟩
  · refine Chain.congr ?_ htotal fun d hd => hentry d (hsub j d hd)
    by_cases hj : j = i
    · subst hj
      rw [update_self, update_self]
      exact ⟨hrest, fun d hd => hi.used d (List.mem_cons_of_mem c hd)⟩
    · rw [update_of_ne hj, update_of_ne hj]
      exact h.isChain j
  · by_cases hj : j = i
    · subst hj
      rw [update_self, update_of_ne (Ne.symm hjk)]
      intro d hd hmem
      exact h.apart j k hjk (by rw [hchain]; exact List.mem_cons_of_mem c hd) hmem
    · rw [update_of_ne hj]
      by_cases hk : k = i
      · subst hk
        rw [update_self]
        intro d hd hmem
        exact h.apart j k hjk hd (by rw [hchain]; exact List.mem_cons_of_mem c hmem)
      · rw [update_of_ne hk]
        exact h.apart j k hjk
  · have hdc : d ≠ c := by
      rintro rfl
      exact hne hzero
    rw [hentry d hdc] at hne
    obtain ⟨j, hj⟩ := h.cover d ⟨hd.1, by rw [← htotal]; exact hd.2⟩ hne
    by_cases hji : j = i
    · subst hji
      rw [hchain] at hj
      exact ⟨j, by rw [update_self]; exact List.mem_of_ne_of_mem hdc hj⟩
    · exact ⟨j, by rwa [update_of_ne hji]⟩
  · have hchange := count_change (s := s) (c := c) (e := (s.put c 0).count.entry) hvalid
      fun d hd => by rw [hentry d hd]
    have hfalse : (s.entry c == 0).toNat = 0 := by simp [hused]
    have htrue : ((s.put c 0).count.entry c == 0).toNat = 1 := by rw [hzero]; rfl
    have hle := count_le (s.put c 0).count
    rw [htotal] at hle
    rw [hfalse, htrue] at hchange
    have hfree : (s.put c 0).freeClusters = s.freeClusters := rfl
    have hsame : (s.put c 0).total = s.total := rfl
    have hcount := h.count
    have hlt : (s.put c 0).freeClusters < (s.put c 0).total := by
      rw [hfree, hsame]
      omega
    have hnew : (s.put c 0).count.freeClusters = s.freeClusters + 1 := by
      rw [Table.count, if_pos hlt]
      rfl
    rw [hnew, htotal]
    omega

theorem Layout.freeLoop (ha : a.Clean) (h : Layout s head chain) {fuel : ℕ} (hchain : chain i = l)
    (hfuel : l.length ≤ fuel) : ∃ s', Table.freeLoop a fuel s (head i) = (true, s') ∧
      Layout s' (update head i 0) (update chain i []) := by
  induction l generalizing s head chain fuel with
  | nil =>
    have hi := h.isChain i
    rw [hchain] at hi
    have hzero := hi.head_eq_zero
    refine ⟨s, ?_, ?_⟩
    · cases fuel with
      | zero => simp [Table.freeLoop, hzero]
      | succ fuel => rw [Table.freeLoop, if_pos hzero]
    · rwa [← hzero, ← hchain, update_eq_self, update_eq_self]
  | cons c l ih =>
    obtain ⟨hpop, hhead⟩ := h.pop hchain
    have hi := h.isChain i
    rw [hchain] at hi
    have hvalid := (hi.used c (by simp)).1
    cases fuel with
    | zero => simp at hfuel
    | succ fuel =>
      obtain ⟨s', hloop, hlayout⟩ := ih hpop (by rw [update_self])
        (show l.length ≤ fuel by simpa using hfuel)
      rw [update_self] at hloop
      rw [update_idem, update_idem] at hlayout
      rw [hhead, Table.freeLoop, if_neg hvalid.pos, hi.next h.small (by simp)]
      by_cases hlast : s.succ c = 0
      · refine ⟨(s.put c 0).count, ?_, ?_⟩
        · simp only [if_pos hlast, write_ok hvalid (ha.free c)]
        · have hnil : l = [] := by
            have hrest := hi.linked.2.2
            rw [hlast] at hrest
            exact hrest.eq_nil
          rwa [hlast, hnil] at hpop
      · refine ⟨s', ?_, hlayout⟩
        simp only [if_neg hlast, write_ok hvalid (ha.free c)]
        exact hloop

theorem Layout.freeChain (ha : a.Clean) (h : Layout s head chain) (i : ι) :
    ∃ s', s.freeChain a (head i) = (true, s') ∧
      Layout s' (update head i 0) (update chain i []) :=
  h.freeLoop ha rfl (h.isChain i).length_le

/-! ## Cutting and moving -/

/-- A chain is cut behind a cluster, and a new owner has the rest. -/
theorem Layout.cut (h : Layout s head chain) (hchain : chain i = l ++ [c] ++ l') (hj : head j = 0)
    (hij : i ≠ j) : Layout (s.put c fatEocMax) (update head j (s.succ c))
      (update (update chain i (l ++ [c])) j l') := by
  have hi := h.isChain i
  rw [hchain] at hi
  have hvalid := (hi.used c (by simp)).1
  have hused := (hi.used c (by simp)).2
  obtain ⟨htaken, -, hne⟩ := List.nodup_append.mp hi.linked.nodup
  have hcl : c ∉ l := fun hmem => (List.nodup_append.mp htaken).2.2 c hmem c (by simp) rfl
  have hcl' : c ∉ l' := fun hmem => hne c (by simp) c hmem rfl
  have hnil := h.chain_eq_nil hj
  have hentry : ∀ d, d ≠ c → (s.put c fatEocMax).entry d = s.entry d := fun d hd =>
    update_of_ne hd _ _
  have hself : (s.put c fatEocMax).entry c = fatEocMax := update_self _ _ _
  have hsucc : (s.put c fatEocMax).succ = update s.succ c 0 := by
    funext d
    by_cases hd : d = c
    · subst hd
      rw [update_self, Table.succ, hself, if_pos (by decide)]
    · rw [update_of_ne hd, Table.succ, Table.succ, hentry d hd]
  obtain ⟨q, hleads, hrest⟩ := hi.linked.suffix
  have hq : q = s.succ c := by
    obtain ⟨b, -, rfl, hb⟩ := hleads.split
    exact hb.symm
  subst hq
  have hcut : Chain (s.put c fatEocMax) (head i) (l ++ [c]) := by
    refine ⟨?_, fun d hd => ?_⟩
    · have hnull : 0 ∉ l ++ [c] := fun hmem => hi.linked.null_not_mem (List.mem_append_left _ hmem)
      have hlinked := (hleads.redirect hcl 0).linked hnull (show Linked _ 0 0 [] from rfl)
      rwa [List.append_nil, ← hsucc] at hlinked
    · refine ⟨(hi.used d (List.mem_append_left _ hd)).1, ?_⟩
      by_cases hdc : d = c
      · rw [hdc, hself]
        decide
      · rw [hentry d hdc]
        exact (hi.used d (List.mem_append_left _ hd)).2
  have htail : Chain (s.put c fatEocMax) (s.succ c) l' := by
    have hold : Chain s (s.succ c) l' := ⟨hrest, fun d hd => hi.used d (List.mem_append_right _ hd)⟩
    refine hold.congr rfl fun d hd => hentry d ?_
    rintro rfl
    exact hcl' hd
  have hmem : ∀ k, ∀ d ∈ update (update chain i (l ++ [c])) j l' k,
      (k = i ∨ k = j) ∧ d ∈ chain i ∨ k ≠ i ∧ k ≠ j ∧ d ∈ chain k := by
    intro k d hd
    by_cases hkj : k = j
    · subst hkj
      rw [update_self] at hd
      exact .inl ⟨.inr rfl, by rw [hchain]; exact List.mem_append_right _ hd⟩
    · rw [update_of_ne hkj] at hd
      by_cases hki : k = i
      · subst hki
        rw [update_self] at hd
        exact .inl ⟨.inl rfl, by rw [hchain]; exact List.mem_append_left _ hd⟩
      · rw [update_of_ne hki] at hd
        exact .inr ⟨hki, hkj, hd⟩
  have hparts : (l ++ [c]).Disjoint l' := fun d hd hd' => hne d hd d hd' rfl
  refine ⟨h.small, fun k => ?_, fun k m hkm d hd hd' => ?_, fun d hd hd0 => ?_, ?_⟩
  · by_cases hkj : k = j
    · subst hkj
      rw [update_self, update_self]
      exact htail
    · rw [update_of_ne hkj, update_of_ne hkj]
      by_cases hki : k = i
      · subst hki
        rw [update_self]
        exact hcut
      · rw [update_of_ne hki]
        refine (h.isChain k).congr rfl fun d hd => hentry d ?_
        rintro rfl
        exact h.apart k i hki hd (by rw [hchain]; simp)
  · rcases hmem k d hd with ⟨hk, hdi⟩ | ⟨hki, hkj, hdk⟩
    · rcases hmem m d hd' with ⟨hm, -⟩ | ⟨hmi, -, hdm⟩
      · rcases hk with rfl | rfl <;> rcases hm with rfl | rfl
        · exact hkm rfl
        · rw [update_of_ne hij, update_self] at hd
          rw [update_self] at hd'
          exact hparts hd hd'
        · rw [update_of_ne hij, update_self] at hd'
          rw [update_self] at hd
          exact hparts hd' hd
        · exact hkm rfl
      · exact h.apart m i hmi hdm hdi
    · rcases hmem m d hd' with ⟨-, hdi⟩ | ⟨-, -, hdm⟩
      · exact h.apart k i hki hdk hdi
      · exact h.apart k m hkm hdk hdm
  · have hold : s.entry d ≠ 0 := by
      by_cases hdc : d = c
      · rw [hdc]
        exact hused
      · rwa [hentry d hdc] at hd0
    obtain ⟨k, hk⟩ := h.cover d hd hold
    by_cases hki : k = i
    · subst hki
      rw [hchain] at hk
      rcases List.mem_append.mp hk with hleft | hright
      · exact ⟨k, by rw [update_of_ne hij, update_self]; exact hleft⟩
      · exact ⟨j, by rw [update_self]; exact hright⟩
    · have hkj : k ≠ j := by
        rintro rfl
        rw [hnil] at hk
        cases hk
      exact ⟨k, by rwa [update_of_ne hkj, update_of_ne hki]⟩
  · have hchange := count_change (s := s) (c := c) (e := (s.put c fatEocMax).entry) hvalid
      fun d hd => by rw [hentry d hd]
    have hfalse : (s.entry c == 0).toNat = 0 := by simp [hused]
    have hfalse' : ((s.put c fatEocMax).entry c == 0).toNat = 0 := by
      rw [hself]
      decide
    rw [hfalse, hfalse'] at hchange
    have hcount := h.count
    have hfree : (s.put c fatEocMax).freeClusters = s.freeClusters := rfl
    have htotal : (s.put c fatEocMax).total = s.total := rfl
    rw [hfree, htotal]
    omega

theorem Layout.move (h : Layout s head chain) (hj : head j = 0) (hij : i ≠ j) :
    Layout s (update (update head j (head i)) i 0) (update (update chain j (chain i)) i []) := by
  have hnil := h.chain_eq_nil hj
  refine ⟨h.small, fun k => ?_, fun k m hkm d hd hd' => ?_, fun d hd hd0 => ?_, h.count⟩
  · by_cases hki : k = i
    · subst hki
      rw [update_self, update_self]
      exact ⟨rfl, by simp⟩
    · rw [update_of_ne hki, update_of_ne hki]
      by_cases hkj : k = j
      · subst hkj
        rw [update_self, update_self]
        exact h.isChain i
      · rw [update_of_ne hkj, update_of_ne hkj]
        exact h.isChain k
  · have hmem : ∀ k d, d ∈ update (update chain j (chain i)) i [] k →
        k ≠ i ∧ (k = j ∧ d ∈ chain i ∨ k ≠ j ∧ d ∈ chain k) := by
      intro k d hd
      by_cases hki : k = i
      · rw [hki, update_self] at hd
        cases hd
      · rw [update_of_ne hki] at hd
        by_cases hkj : k = j
        · rw [hkj, update_self] at hd
          exact ⟨hki, .inl ⟨hkj, hd⟩⟩
        · rw [update_of_ne hkj] at hd
          exact ⟨hki, .inr ⟨hkj, hd⟩⟩
    obtain ⟨hki, ⟨rfl, hdi⟩ | ⟨hkj, hdk⟩⟩ := hmem k d hd
    · obtain ⟨hmi, ⟨rfl, -⟩ | ⟨-, hdm⟩⟩ := hmem m d hd'
      · exact hkm rfl
      · exact h.apart m i hmi hdm hdi
    · obtain ⟨hmi, ⟨rfl, hdi⟩ | ⟨-, hdm⟩⟩ := hmem m d hd'
      · exact h.apart k i hki hdk hdi
      · exact h.apart k m hkm hdk hdm
  · obtain ⟨k, hk⟩ := h.cover d hd hd0
    by_cases hki : k = i
    · subst hki
      exact ⟨j, by rwa [update_of_ne (Ne.symm hij), update_self]⟩
    · have hkj : k ≠ j := by
        rintro rfl
        rw [hnil] at hk
        cases hk
      exact ⟨k, by rwa [update_of_ne hki, update_of_ne hkj]⟩

/-! ## Looking up -/

theorem Chain.tail (h : Chain s start (c :: l)) : Chain s (s.succ c) l :=
  ⟨h.linked.2.2, fun d hd => h.used d (List.mem_cons_of_mem c hd)⟩

theorem Chain.succ_eq_zero_iff (h : Chain s start (c :: l)) : s.succ c = 0 ↔ l = [] := by
  have htail := h.tail
  constructor
  · intro hzero
    rw [hzero] at htail
    exact htail.eq_nil
  · rintro rfl
    exact htail.head_eq_zero

theorem Chain.walk (h : Chain s start l) (hsmall : s.total + 2 ≤ fatBadCluster) {fuel : ℕ}
    (hfuel : l.length ≤ fuel) : s.walk fuel start = l := by
  induction l generalizing start fuel with
  | nil =>
    rw [h.head_eq_zero]
    cases fuel with
    | zero => rfl
    | succ fuel => rw [Table.walk, if_pos rfl]
  | cons c l ih =>
    cases fuel with
    | zero => simp at hfuel
    | succ fuel =>
      obtain rfl : start = c := h.linked.1
      have hrest := ih h.tail (show l.length ≤ fuel by simpa using hfuel)
      rw [Table.walk, if_neg (h.used start (by simp)).1.pos, h.next hsmall (by simp)]
      by_cases hlast : s.succ start = 0
      · simp only [if_pos hlast, h.succ_eq_zero_iff.mp hlast]
      · simp only [if_neg hlast, hrest]

theorem Chain.seek (h : Chain s start (c :: l)) (hsmall : s.total + 2 ≤ fatBadCluster) (n : ℕ) :
    s.seek n start = if hn : n < (c :: l).length then .found (c :: l)[n]
      else .missing ((c :: l).getLastD 0) (n - l.length) := by
  induction l generalizing start c n with
  | nil =>
    obtain rfl : start = c := h.linked.1
    cases n with
    | zero => rfl
    | succ n =>
      have hlast : s.succ start = 0 := h.succ_eq_zero_iff.mpr rfl
      rw [Table.seek, h.next hsmall (by simp), if_pos hlast]
      simp
  | cons d l ih =>
    obtain rfl : start = c := h.linked.1
    cases n with
    | zero => rfl
    | succ n =>
      have hnext : s.succ start ≠ 0 := fun hzero => by simpa using h.succ_eq_zero_iff.mp hzero
      rw [Table.seek, h.next hsmall (by simp), if_neg hnext]
      dsimp only
      rw [ih h.tail n]
      by_cases hn : n < (d :: l).length
      · rw [dif_pos hn, dif_pos (by simpa using hn)]
        rfl
      · rw [dif_neg hn, dif_neg (by simpa using hn)]
        simp [List.getLastD_eq_getLast?]

/-- What `fat_cluster_at_alloc` does to the chain of an owner. -/
theorem Layout.clusterAtAlloc (ha : a.Clean) (h : Layout s head chain) (i : ι) (index : ℕ) :
    ∃ l, Layout (s.clusterAtAlloc a (head i) index).2.2 (update head i (s.clusterAtAlloc a (head i) index).2.1)
        (update chain i (chain i ++ l)) ∧
      ((s.clusterAtAlloc a (head i) index).1 ≠ 0 →
        (chain i ++ l)[index]? = some (s.clusterAtAlloc a (head i) index).1) ∧
      (head i ≠ 0 → (s.clusterAtAlloc a (head i) index).2.1 = head i) ∧
      (head i = 0 → (s.clusterAtAlloc a (head i) index).2.1 ≠ 0 →
        s.scan = some (s.clusterAtAlloc a (head i) index).2.1) ∧ (index < (chain i).length → l = []) := by
  have hi := h.isChain i
  by_cases hzero : head i = 0
  · have hnil := h.chain_eq_nil hzero
    obtain ⟨hlayout, hlength, hscan⟩ := h.grow (n := index + 1) ha i (w := 0) (by rw [hnil]; rfl)
    simp only [Table.clusterAtAlloc, if_pos hzero] at hlayout ⊢
    refine ⟨(Table.grow a (index + 1) s 0).1, hlayout, fun hne => ?_, fun hne => absurd hzero hne,
      fun _ hne => ?_, fun hlt => by rw [hnil] at hlt; simp at hlt⟩
    · rw [hnil, List.nil_append]
      by_cases hfull : (Table.grow a (index + 1) s 0).1.length = index + 1
      · rw [if_pos hfull]
        rw [List.getLastD_eq_getLast?, List.getLast?_eq_getElem?, hfull]
        have hlt : index < (Table.grow a (index + 1) s 0).1.length := by omega
        simp [List.getElem?_eq_getElem hlt]
      · rw [if_neg hfull] at hne
        exact absurd rfl hne
    · refine (hscan (by omega) fun hempty => hne ?_).symm
      rw [hempty]
      rfl
  · obtain ⟨c, l, hcl⟩ : ∃ c l, chain i = c :: l := by
      cases hc : chain i with
      | nil =>
        rw [hc] at hi
        exact absurd hi.head_eq_zero hzero
      | cons c l => exact ⟨c, l, rfl⟩
    have hseek := hi
    rw [hcl] at hseek
    have hplace := hseek.seek h.small index
    simp only [Table.clusterAtAlloc, if_neg hzero]
    by_cases hlt : index < (c :: l).length
    · rw [hplace, dif_pos hlt]
      refine ⟨[], ?_, fun _ => ?_, fun _ => rfl, fun hz => absurd hz hzero, fun _ => rfl⟩
      · simpa using h
      · simp only [hcl, List.append_nil]
        exact List.getElem?_eq_getElem hlt
    · rw [hplace, dif_neg hlt]
      have hmissing : (c :: l).length ≤ index := Nat.not_lt.mp hlt
      obtain ⟨hlayout, hlength, -⟩ := h.grow (n := index - l.length) ha i
        (w := (c :: l).getLastD 0) (by rw [hcl])
      rw [if_neg hzero] at hlayout
      refine ⟨(Table.grow a (index - l.length) s ((c :: l).getLastD 0)).1, hlayout, fun hne => ?_,
        fun _ => rfl, fun hz => absurd hz hzero, fun hlt' => ?_⟩
      · dsimp only at hne ⊢
        generalize (Table.grow a (index - l.length) s ((c :: l).getLastD 0)).1 = new at hne ⊢
        by_cases hfull : new.length = index - l.length
        · rw [if_pos hfull, hcl, List.getElem?_append_right hmissing]
          rw [List.getLastD_eq_getLast?, List.getLast?_eq_getElem?, hfull]
          have hpos : index - (c :: l).length = index - l.length - 1 := by
            simp only [List.length_cons]
            omega
          have hin : index - l.length - 1 < new.length := by
            simp only [List.length_cons] at hmissing
            omega
          rw [hpos, List.getElem?_eq_getElem hin]
          rfl
        · rw [if_neg hfull] at hne
          exact absurd rfl hne
      · rw [hcl] at hlt'
        exact absurd hlt' hlt

/-! ## The remembered lookup -/

/-- What is remembered is right for a chain, if it is remembered for its first cluster. -/
structure Cache.Ok (k : Cache) (start : ℕ) (l : List ℕ) : Prop where
  place : k.valid = true → k.start = start → k.cluster = l.getD k.index 0 ∧ (l ≠ [] → k.index < l.length)
  first : k.valid = true → k.index = 0 → k.cluster = k.start
  empty : k.valid = true → k.start = 0 → k.index = 0

variable {k : Cache} {index : ℕ}

theorem Cache.Ok.rewind (h : k.Ok start l) (hs : Chain s start l) (index : ℕ) :
    (k.rewind start index).Ok start l ∧ (k.rewind start index).valid = true ∧
      (k.rewind start index).start = start ∧ (k.rewind start index).index ≤ index := by
  have hfirst : start = l.getD 0 0 := by
    cases l with
    | nil => exact hs.head_eq_zero
    | cons c l => exact hs.linked.1
  have hpos : l ≠ [] → 0 < l.length := fun hne => List.length_pos_of_ne_nil hne
  rw [Cache.rewind]
  by_cases hmiss : k.valid = false ∨ k.start ≠ start
  · rw [if_pos hmiss]
    exact ⟨⟨fun _ _ => ⟨hfirst, hpos⟩, fun _ _ => rfl, fun _ _ => rfl⟩, rfl, rfl, Nat.zero_le _⟩
  · rw [if_neg hmiss]
    simp only [not_or, Bool.not_eq_false, not_not] at hmiss
    split_ifs with hback
    · refine ⟨⟨fun _ _ => ⟨hfirst, hpos⟩, fun _ _ => hmiss.2.symm, fun _ _ => rfl⟩, hmiss.1, hmiss.2, Nat.zero_le _⟩
    · exact ⟨h, hmiss.1, hmiss.2, Nat.not_lt.mp hback⟩

theorem Cache.Ok.advance (h : k.Ok start l) (hs : Chain s start l)
    (hsmall : s.total + 2 ≤ fatBadCluster) (hvalid : k.valid = true) (hstart : k.start = start) (n : ℕ) :
    (s.advance n k).1 = l.getD (k.index + n) 0 ∧ (s.advance n k).2.Ok start l := by
  induction n generalizing k with
  | zero => exact ⟨(h.place hvalid hstart).1, h⟩
  | succ n ih =>
    obtain ⟨hcluster, hlt⟩ := h.place hvalid hstart
    rw [Table.advance]
    by_cases hnil : l = []
    · have hzero : k.cluster = 0 := by rw [hcluster, hnil]; rfl
      have hnext : s.next k.cluster = .error := by
        rw [Table.next, if_neg]
        rw [hzero]
        exact fun hv => hv.pos rfl
      rw [hnext]
      exact ⟨by rw [hnil]; rfl, h⟩
    · have hindex := hlt hnil
      have hget : l.getD k.index 0 = l[k.index] := by
        rw [List.getD_eq_getElem?_getD, List.getElem?_eq_getElem hindex, Option.getD_some]
      have hmem : k.cluster ∈ l := by
        rw [hcluster, hget]
        exact List.getElem_mem hindex
      obtain ⟨q, hq, hrest⟩ := (by
        have hsplit := List.take_append_drop k.index l
        rw [List.drop_eq_getElem_cons hindex] at hsplit
        have hlinked := hs.linked
        rw [← hsplit] at hlinked
        exact hlinked.suffix : ∃ q, Leads s.succ start (l.take k.index) q ∧
          Linked s.succ 0 q (l[k.index] :: l.drop (k.index + 1)))
      have htail := hrest.2.2
      rw [← hget, ← hcluster] at htail
      rw [hs.next hsmall hmem]
      by_cases hlast : s.succ k.cluster = 0
      · rw [if_pos hlast]
        rw [hlast] at htail
        have hend := htail.eq_nil
        have hlength : l.length ≤ k.index + 1 := by
          rw [← List.drop_eq_nil_iff]
          exact hend
        refine ⟨?_, h⟩
        rw [List.getD_eq_getElem?_getD, List.getElem?_eq_none (by omega), Option.getD_none]
      · rw [if_neg hlast]
        dsimp only
        obtain ⟨l', hl', -⟩ := htail.exists_cons hlast
        have hin : k.index + 1 < l.length := by
          have hlen := congrArg List.length hl'
          rw [List.length_drop, List.length_cons] at hlen
          omega
        have hnew : s.succ k.cluster = l.getD (k.index + 1) 0 := by
          rw [List.drop_eq_getElem_cons hin] at hl'
          rw [List.getD_eq_getElem?_getD, List.getElem?_eq_getElem hin, Option.getD_some]
          exact (List.cons.inj hl').1.symm
        have hok : Cache.Ok { k with cluster := s.succ k.cluster, index := k.index + 1 } start l := by
          refine ⟨fun _ _ => ⟨hnew, fun _ => hin⟩, fun _ hz => absurd hz (Nat.succ_ne_zero _), fun hv hz => ?_⟩
          exfalso
          have hzero : start = 0 := hstart.symm.trans hz
          rw [hzero] at hs
          exact hnil hs.eq_nil
        have hmore := ih hok hvalid hstart
        rwa [show k.index + 1 + n = k.index + (n + 1) by omega] at hmore

/-- `fat_cluster_at` gives the clusters of the chain, and zero behind its end. -/
theorem Cache.Ok.clusterAt (h : k.Ok start l) (hs : Chain s start l)
    (hsmall : s.total + 2 ≤ fatBadCluster) (index : ℕ) :
    (s.clusterAt start k index).1 = l.getD index 0 ∧ (s.clusterAt start k index).2.Ok start l := by
  obtain ⟨hok, hvalid, hstart, hle⟩ := h.rewind hs index
  have hadvance := hok.advance hs hsmall hvalid hstart (index - (k.rewind start index).index)
  rwa [Nat.add_sub_cancel' hle] at hadvance

theorem Cache.Ok.append (h : k.Ok start l) (hne : l ≠ []) (l' : List ℕ) : k.Ok start (l ++ l') := by
  refine ⟨fun hvalid hstart => ?_, h.first, h.empty⟩
  obtain ⟨hcluster, hlt⟩ := h.place hvalid hstart
  have hindex := hlt hne
  refine ⟨?_, fun _ => by rw [List.length_append]; omega⟩
  rw [hcluster, List.getD_eq_getElem?_getD, List.getD_eq_getElem?_getD, List.getElem?_append_left hindex]

/-- What is remembered for another first cluster does not matter, and neither does the first place. -/
theorem Cache.Ok.restart (h : k.Ok start l) {start' : ℕ} (hs : Chain s start' l')
    (hmiss : k.valid = true → k.start = start' → k.index = 0) : k.Ok start' l' := by
  refine ⟨fun hvalid hstart => ?_, h.first, h.empty⟩
  have hindex := hmiss hvalid hstart
  rw [hindex, h.first hvalid hindex, hstart]
  cases l' with
  | nil => exact ⟨hs.head_eq_zero, fun hne => absurd rfl hne⟩
  | cons c l' => exact ⟨hs.linked.1, fun _ => Nat.succ_pos _⟩

/-- A chain that is cut behind the remembered place keeps it. -/
theorem Cache.Ok.take (h : k.Ok start l) {n : ℕ}
    (hlt : k.valid = true → k.start = start → k.index < n) : k.Ok start (l.take n) := by
  refine ⟨fun hvalid hstart => ?_, h.first, h.empty⟩
  obtain ⟨hcluster, hin⟩ := h.place hvalid hstart
  have hn := hlt hvalid hstart
  refine ⟨?_, fun hne => ?_⟩
  · rw [hcluster, List.getD_eq_getElem?_getD, List.getD_eq_getElem?_getD, List.getElem?_take_of_lt hn]
  · have hl : l ≠ [] := by
      rintro rfl
      simp at hne
    have := hin hl
    rw [List.length_take]
    omega

theorem Cache.ok_of_invalid (h : k.valid = false) : k.Ok start l := by
  refine ⟨fun hvalid => ?_, fun hvalid => ?_, fun hvalid => ?_⟩
  all_goals
    rw [h] at hvalid
    cases hvalid

end Lemmas

end Mario.Fs.Fat.Clusters
