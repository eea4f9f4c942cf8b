import Mario.Fs.Fat.Parents

/-!
# Parents along runs

An inode of a directory that is in use, or can be used without being read, remembers the directory that
contains it. A call may have an inode in between that does not; these are listed.
-/

namespace Mario.Fs.Fat.Parents

open Mario.Lib Function

variable {s s' : State} {d m n n' q c : ℕ} {e : Entry} {i : Inode} {ex ex' : List ℕ} {orphan : Option ℕ}

/-! ## The invariant -/

/-- The inode of a directory has what belongs to the directory. -/
def Right (s : State) (n : ℕ) : Prop :=
  ∀ c, dirAt s n = some c → (s.inode n).Current → (s.inode n).isDir = true ∧ (s.inode n).startCluster = c ∧
    (n ≠ rootIno → ∀ m, Contains s m n → (s.inode n).parentIno = m)

/-- Every entry is in one directory, or in the directory of a cluster whose entry is on its way. -/
structure Tree (orphan : Option ℕ) (s : State) : Prop where
  slots : ∀ n, s.entry n ≠ none → rootIno < n ∧ n < s.nrSlots
  placed : ∀ n, s.entry n ≠ none → (∃ m, Contains s m n) ∨ orphan ≠ none ∧ s.place n = orphan
  irrefl : ∀ n, s.entry n ≠ none → ¬ Contains s n n
  unique : ∀ n m c, dirAt s n = some c → dirAt s m = some c → n = m

structure Inv (orphan : Option ℕ) (ex : List ℕ) (s : State) : Prop where
  volume : Tree orphan s
  dead : ∀ n, s.entry n = none → n ≠ rootIno → (s.inode n).upToDate = false
  files : ∀ n e, s.entry n = some e → e.isDir = false → (s.inode n).upToDate = true → (s.inode n).isDir = false
  right : ∀ n, n ∉ ex → Right s n

theorem Inv.restore (h : Inv orphan ex s) (hn : Right s n) (hex : ∀ q, q ∉ ex' → q ≠ n → q ∉ ex) : Inv orphan ex' s := by
  refine ⟨h.volume, h.dead, h.files, fun q hq => ?_⟩
  by_cases hqn : q = n
  · subst hqn
    exact hn
  · exact h.right q (hex q hq hqn)

theorem Inv.mono (h : Inv orphan ex s) (hex : ∀ q, q ∉ ex' → q ∉ ex) : Inv orphan ex' s :=
  ⟨h.volume, h.dead, h.files, fun q hq => h.right q (hex q hq)⟩

/-! ## Directories -/

theorem dirAt_root (s : State) : dirAt s rootIno = some s.rootCluster := if_pos rfl

theorem dirAt_of_ne (hn : n ≠ rootIno) :
    dirAt s n = (s.entry n).bind fun e => if e.isDir then some e.cluster else none := by
  rw [dirAt, if_neg hn]
  cases s.entry n <;> rfl

theorem entry_of_dirAt (hn : n ≠ rootIno) (h : dirAt s n = some c) : s.entry n = some ⟨true, c⟩ := by
  rw [dirAt_of_ne hn] at h
  obtain ⟨⟨isDir, cluster⟩, he, hc⟩ := Option.bind_eq_some_iff.mp h
  dsimp only at hc
  split_ifs at hc with hdir
  cases hc
  rw [he, hdir]

theorem dirAt_of_entry (hn : n ≠ rootIno) (h : s.entry n = some e) (hdir : e.isDir = true) :
    dirAt s n = some e.cluster := by
  rw [dirAt_of_ne hn, h, Option.bind_some, if_pos hdir]

theorem dirAt_of_none (hn : n ≠ rootIno) (h : s.entry n = none) : dirAt s n = none := by
  rw [dirAt_of_ne hn, h, Option.bind_none]

theorem dirAt_of_file (hn : n ≠ rootIno) (h : s.entry n = some e) (hdir : e.isDir = false) : dirAt s n = none := by
  rw [dirAt_of_ne hn, h, Option.bind_some, hdir]
  rfl

theorem dirAt_congr (hroot : s'.rootCluster = s.rootCluster) (h : s'.entry n = s.entry n) : dirAt s' n = dirAt s n := by
  rw [dirAt, dirAt, hroot, h]

theorem Tree.ne_root (h : Tree orphan s) (hn : s.entry n = some e) : n ≠ rootIno := by
  have hlt := (h.slots n (by rw [hn]; exact Option.some_ne_none e)).1
  omega

/-! ## One inode changes -/

/-- Nothing changes but the inode of a number. -/
structure OnlyInode (n : ℕ) (s s' : State) : Prop where
  nrSlots : s'.nrSlots = s.nrSlots
  root : s'.rootCluster = s.rootCluster
  entry : s'.entry = s.entry
  place : s'.place = s.place
  inode : ∀ q, q ≠ n → s'.inode q = s.inode q

theorem OnlyInode.trans {s₁ s₂ s₃ : State} (h : OnlyInode n s₁ s₂) (h' : OnlyInode n s₂ s₃) : OnlyInode n s₁ s₃ :=
  ⟨h'.nrSlots.trans h.nrSlots, h'.root.trans h.root, h'.entry.trans h.entry, h'.place.trans h.place,
    fun q hq => (h'.inode q hq).trans (h.inode q hq)⟩

theorem OnlyInode.dirAt_eq (h : OnlyInode n s s') (q : ℕ) : dirAt s' q = dirAt s q :=
  dirAt_congr h.root (congrFun h.entry q)

theorem OnlyInode.contains_iff (h : OnlyInode n s s') : Contains s' m q ↔ Contains s m q := by
  rw [Contains, Contains, h.place, h.dirAt_eq]

theorem OnlyInode.tree (h : OnlyInode n s s') (hv : Tree orphan s) : Tree orphan s' := by
  refine ⟨fun q hq => ?_, fun q hq => ?_, fun q hq hself => ?_, fun q r c hq hr => ?_⟩
  · rw [h.entry] at hq
    rw [h.nrSlots]
    exact hv.slots q hq
  · rw [h.entry] at hq
    rw [h.place]
    exact (hv.placed q hq).imp (fun hm => hm.imp fun m => h.contains_iff.mpr) id
  · rw [h.entry] at hq
    exact hv.irrefl q hq (h.contains_iff.mp hself)
  · rw [h.dirAt_eq] at hq hr
    exact hv.unique q r c hq hr

@[simp] theorem inode_setInode (s : State) (n : ℕ) (i : Inode) : (s.setInode n i).inode n = i := by
  simp [State.setInode, State.inode]

theorem onlyInode_setInode (s : State) (n : ℕ) (i : Inode) : OnlyInode n s (s.setInode n i) :=
  ⟨rfl, rfl, rfl, rfl, fun q hq => by simp [State.setInode, State.inode, hq]⟩

theorem onlyInode_readInode (s : State) (n : ℕ) : OnlyInode n s (readInode s n) := by
  unfold readInode
  split_ifs
  · exact ⟨rfl, rfl, rfl, rfl, fun _ _ => rfl⟩
  · exact onlyInode_setInode s n _

theorem onlyInode_iget (s : State) (n : ℕ) : OnlyInode n s (iget s n) :=
  (onlyInode_setInode s n _).trans (onlyInode_readInode _ n)

theorem onlyInode_iput (s : State) (n : ℕ) : OnlyInode n s (iput s n) := onlyInode_setInode s n _

theorem onlyInode_clearInode (s : State) (n : ℕ) : OnlyInode n s (clearInode s n) :=
  ⟨rfl, rfl, rfl, rfl, fun q hq => by simp [clearInode, State.inode, hq]⟩

theorem onlyInode_setParent (s : State) (n d : ℕ) : OnlyInode n s (setParent s n d) := by
  unfold setParent
  split_ifs
  · exact onlyInode_setInode s n _
  · exact ⟨rfl, rfl, rfl, rfl, fun _ _ => rfl⟩

theorem Inv.only (h : Inv orphan ex s) (honly : OnlyInode n s s')
    (hdead : s.entry n = none → n ≠ rootIno → (s'.inode n).upToDate = false)
    (hfile : ∀ e, s.entry n = some e → e.isDir = false → (s'.inode n).upToDate = true → (s'.inode n).isDir = false)
    (hright : n ∉ ex' → Right s' n) (hex : ∀ q, q ∉ ex' → q ≠ n → q ∉ ex) : Inv orphan ex' s' := by
  refine ⟨honly.tree h.volume, fun q hq hroot => ?_, fun q e hq hdir hread => ?_, fun q hq => ?_⟩
  · rw [honly.entry] at hq
    by_cases hqn : q = n
    · subst hqn
      exact hdead hq hroot
    · rw [honly.inode q hqn]
      exact h.dead q hq hroot
  · rw [honly.entry] at hq
    by_cases hqn : q = n
    · subst hqn
      exact hfile e hq hdir hread
    · rw [honly.inode q hqn] at hread ⊢
      exact h.files q e hq hdir hread
  · by_cases hqn : q = n
    · subst hqn
      exact hright hq
    · intro c hc hcurrent
      rw [honly.dirAt_eq] at hc
      rw [honly.inode q hqn] at hcurrent ⊢
      obtain ⟨hdir, hcluster, hparent⟩ := h.right q (hex q hq hqn) c hc hcurrent
      exact ⟨hdir, hcluster, fun hroot m hm => hparent hroot m (honly.contains_iff.mp hm)⟩

theorem inode_iget (s : State) (n : ℕ) :
    (iget s n).inode n = if (s.inode n).upToDate then { s.inode n with count := (s.inode n).count + 1 }
      else { fatReadInode s n with count := (s.inode n).count + 1, upToDate := true } := by
  unfold iget readInode
  rw [inode_setInode]
  dsimp only
  split_ifs with hread
  · rw [inode_setInode]
  · rw [inode_setInode, fatReadInode, fatReadInode, inode_setInode]
    rw [show (s.setInode n { s.inode n with count := (s.inode n).count + 1 }).entry n = s.entry n from rfl]
    split_ifs
    · rfl
    · cases s.entry n with
      | none => rfl
      | some e => rfl

/-- A number that an inode can be read for. -/
def HasInode (s : State) (n : ℕ) : Prop := n = rootIno ∨ s.entry n ≠ none

theorem count_iget (s : State) (n : ℕ) : ((iget s n).inode n).count = (s.inode n).count + 1 := by
  rw [inode_iget]
  split_ifs <;> rfl

theorem Inv.iget_kind (h : Inv orphan ex s) (hex : n ∉ ex) (hn : s.entry n = some e) :
    ((iget s n).inode n).isDir = e.isDir ∧ (e.isDir = true → ((iget s n).inode n).startCluster = e.cluster) := by
  have hroot := h.volume.ne_root hn
  rw [inode_iget]
  split_ifs with hread
  · cases hdir : e.isDir with
    | false => exact ⟨h.files n e hn hdir hread, by simp⟩
    | true =>
      obtain ⟨hisDir, hcluster, -⟩ := h.right n hex e.cluster (dirAt_of_entry hroot hn hdir) (.inl hread)
      exact ⟨hisDir, fun _ => hcluster⟩
  · simp [fatReadInode, hroot, hn]

theorem Inv.iget_of_right (h : Inv orphan ex s) (hn : HasInode s n) (hright : n ∉ ex' → Right (iget s n) n)
    (hex : ∀ q, q ∉ ex' → q ≠ n → q ∉ ex) : Inv orphan ex' (iget s n) := by
  refine h.only (onlyInode_iget s n) (fun hnone hroot => ?_) (fun e he hdir _ => ?_) hright hex
  · exact absurd hnone (hn.resolve_left hroot)
  · have hroot := h.volume.ne_root he
    rw [inode_iget]
    split_ifs with hread
    · exact h.files n e he hdir hread
    · simp [fatReadInode, hroot, he, hdir]

/-- `iget` may give an inode that does not remember its directory. -/
theorem Inv.iget (h : Inv orphan ex s) (hn : HasInode s n) : Inv orphan (n :: ex) (Parents.iget s n) :=
  h.iget_of_right hn (fun hin => absurd List.mem_cons_self hin) fun _ hq _ hin => hq (List.mem_cons_of_mem n hin)

/-- An inode that was there still remembers its directory, and the root needs not. -/
theorem Inv.iget_kept (h : Inv orphan ex s) (hn : HasInode s n) (hkept : n = rootIno ∨ Kept s n) :
    Inv orphan ex (Parents.iget s n) := by
  refine h.iget_of_right hn (fun hex c hc _ => ?_) fun _ hq _ => hq
  rw [(onlyInode_iget s n).dirAt_eq] at hc
  rw [inode_iget]
  split_ifs with hread
  · obtain ⟨hdir, hcluster, hparent⟩ := h.right n hex c hc (.inl hread)
    exact ⟨hdir, hcluster, fun hroot m hm => hparent hroot m ((onlyInode_iget s n).contains_iff.mp hm)⟩
  · obtain rfl | hkept := hkept
    · rw [dirAt_root] at hc
      refine ⟨?_, ?_, fun hroot => absurd rfl hroot⟩
      · simp [fatReadInode]
      · simpa [fatReadInode] using hc
    · exact absurd (hkept (by rw [Live, hc]; rfl)) hread

theorem Inv.iput (h : Inv orphan ex s) : Inv orphan ex (iput s n) := by
  have hinode : (Parents.iput s n).inode n = { s.inode n with count := (s.inode n).count - 1 } := inode_setInode s n _
  refine h.only (onlyInode_iput s n) ?_ ?_ ?_ fun _ hq _ => hq
  · rw [hinode]
    exact h.dead n
  · rw [hinode]
    exact h.files n
  · intro hex c hc hcurrent
    rw [hinode] at hcurrent ⊢
    have hcurrent' : (s.inode n).Current := hcurrent.imp id fun hpos => by dsimp only at hpos; omega
    exact h.right n hex c hc hcurrent'

theorem Inv.iref (h : Inv orphan ex s) (hcount : 0 < (s.inode n).count) :
    Inv orphan ex (s.setInode n { s.inode n with count := (s.inode n).count + 1 }) := by
  refine h.only (onlyInode_setInode s n _) ?_ ?_ ?_ fun _ hq _ => hq
  · rw [inode_setInode]
    exact h.dead n
  · rw [inode_setInode]
    exact h.files n
  · intro hex c hc _
    rw [inode_setInode]
    exact h.right n hex c hc (.inr hcount)

theorem Inv.clearInode (h : Inv orphan ex s) : Inv orphan ex (clearInode s n) := by
  have hinode : (Parents.clearInode s n).inode n = blank := by simp [Parents.clearInode, State.inode]
  refine h.only (onlyInode_clearInode s n) (fun _ _ => by rw [hinode]; rfl) ?_ ?_ fun _ hq _ => hq
  · rw [hinode]
    simp [blank]
  · intro _ c _ hcurrent
    rw [hinode] at hcurrent
    simp [Inode.Current, blank] at hcurrent

/-- The parent of an inode that is as its entry says is remembered. -/
theorem Inv.setParent (h : Inv orphan (n :: ex) s) (hn : s.entry n = some e) (hkind : (s.inode n).isDir = e.isDir)
    (hcluster : e.isDir = true → (s.inode n).startCluster = e.cluster) (hcontains : Contains s d n) :
    Inv orphan ex (setParent s n d) := by
  have hroot := h.volume.ne_root hn
  have hdirAt : ∀ c, dirAt s n = some c → e.isDir = true ∧ e.cluster = c := by
    intro c hc
    have he := entry_of_dirAt hroot hc
    rw [hn] at he
    cases he
    exact ⟨rfl, rfl⟩
  have hex : ∀ q, q ∉ ex → q ≠ n → q ∉ n :: ex := fun q hq hqn hin =>
    (List.mem_cons.mp hin).elim hqn hq
  unfold Parents.setParent
  split_ifs with hdir
  · refine h.only (onlyInode_setInode s n _) ?_ ?_ ?_ hex
    · rw [inode_setInode]
      exact h.dead n
    · rw [inode_setInode]
      exact h.files n
    · intro _ c hc _
      rw [(onlyInode_setInode s n _).dirAt_eq] at hc
      obtain ⟨heDir, rfl⟩ := hdirAt c hc
      rw [inode_setInode]
      refine ⟨hdir, hcluster heDir, fun _ m hm => ?_⟩
      rw [(onlyInode_setInode s n _).contains_iff] at hm
      obtain ⟨c₁, hplace₁, hd⟩ := hcontains
      obtain ⟨c₂, hplace₂, hm⟩ := hm
      obtain rfl := Option.some.inj (hplace₁.symm.trans hplace₂)
      exact h.volume.unique d m c₁ hd hm
  · refine h.restore (fun c hc _ => ?_) hex
    rw [hkind, (hdirAt c hc).1] at hdir
    exact absurd rfl hdir

/-! ## Entries change -/

theorem inode_inodeInvalidate (s : State) (n q : ℕ) :
    (inodeInvalidate s n).inode q = if q = n then { s.inode n with upToDate := false } else s.inode q := by
  by_cases hq : q = n
  · subst hq
    rw [if_pos rfl]
    cases hc : s.cache q <;> simp [inodeInvalidate, State.inode, hc, blank]
  · rw [if_neg hq]
    simp [inodeInvalidate, State.inode, hq]

theorem inode_delEntry (s : State) (n q : ℕ) :
    (delEntry s n).inode q = if q = n then { s.inode n with upToDate := false } else s.inode q :=
  inode_inodeInvalidate _ n q

theorem inode_addEntry (s : State) (d n q : ℕ) (e : Entry) :
    (addEntry s d n e).inode q = if q = n then { s.inode n with upToDate := false } else s.inode q :=
  inode_inodeInvalidate _ n q

theorem entry_delEntry (s : State) (n q : ℕ) : (delEntry s n).entry q = if q = n then none else s.entry q := by
  by_cases hq : q = n
  · simp [delEntry, inodeInvalidate, hq]
  · simp [delEntry, inodeInvalidate, hq]

theorem dirAt_delEntry (hn : n ≠ rootIno) (q : ℕ) : dirAt (delEntry s n) q = if q = n then none else dirAt s q := by
  by_cases hq : q = n
  · subst hq
    rw [if_pos rfl]
    exact dirAt_of_none hn (by rw [entry_delEntry, if_pos rfl])
  · rw [if_neg hq]
    exact dirAt_congr rfl (by rw [entry_delEntry, if_neg hq])

/-- The cluster of a directory that an entry is for. -/
def Entry.dir? (e : Entry) : Option ℕ := if e.isDir then some e.cluster else none

theorem Inv.delEntry (h : Inv none ex s) (hn : s.entry n = some e) (hex : ∀ q, q ∉ ex' → q ≠ n → q ∉ ex) :
    Inv e.dir? ex' (delEntry s n) := by
  have hroot := h.volume.ne_root hn
  have hentry : ∀ q, (Parents.delEntry s n).entry q ≠ none → q ≠ n ∧ s.entry q ≠ none := by
    intro q hq
    rw [entry_delEntry] at hq
    split_ifs at hq with hqn
    · exact absurd rfl hq
    · exact ⟨hqn, hq⟩
  have hdirAt : ∀ q c, dirAt (Parents.delEntry s n) q = some c → q ≠ n ∧ dirAt s q = some c := by
    intro q c hq
    rw [dirAt_delEntry hroot] at hq
    split_ifs at hq with hqn
    exact ⟨hqn, hq⟩
  have hcontains : ∀ m q, Contains (Parents.delEntry s n) m q → Contains s m q := by
    rintro m q ⟨c, hplace, hm⟩
    exact ⟨c, hplace, (hdirAt m c hm).2⟩
  refine ⟨⟨fun q hq => h.volume.slots q (hentry q hq).2, fun q hq => ?_,
    fun q hq hself => h.volume.irrefl q (hentry q hq).2 (hcontains q q hself), fun q r c hq hr => ?_⟩,
    fun q hq hqroot => ?_, fun q e' hq hdir hread => ?_, fun q hq c hc hcurrent => ?_⟩
  · obtain ⟨m, c, hplace, hm⟩ := (h.volume.placed q (hentry q hq).2).resolve_right fun hnone => hnone.1 rfl
    by_cases hmn : m = n
    · subst hmn
      have he := entry_of_dirAt hroot hm
      rw [hn] at he
      cases he
      exact .inr ⟨Option.some_ne_none c, hplace⟩
    · refine .inl ⟨m, c, hplace, ?_⟩
      rw [dirAt_delEntry hroot, if_neg hmn]
      exact hm
  · exact h.volume.unique q r c (hdirAt q c hq).2 (hdirAt r c hr).2
  · rw [inode_delEntry]
    split_ifs with hqn
    · rfl
    · rw [entry_delEntry, if_neg hqn] at hq
      exact h.dead q hq hqroot
  · rw [entry_delEntry] at hq
    split_ifs at hq with hqn
    rw [inode_delEntry, if_neg hqn] at hread ⊢
    exact h.files q e' hq hdir hread
  · obtain ⟨hqn, hc'⟩ := hdirAt q c hc
    rw [inode_delEntry, if_neg hqn] at hcurrent ⊢
    obtain ⟨hdir, hcluster, hparent⟩ := h.right q (hex q hq hqn) c hc' hcurrent
    exact ⟨hdir, hcluster, fun hqroot m hm => hparent hqroot m (hcontains m q hm)⟩

theorem entry_freeChain (s : State) (e : Entry) : (freeChain s e).entry = s.entry := by
  unfold freeChain
  split_ifs <;> rfl

theorem inode_freeChain (s : State) (e : Entry) (q : ℕ) : (freeChain s e).inode q = s.inode q := by
  unfold freeChain
  split_ifs <;> rfl

theorem dirAt_freeChain (s : State) (e : Entry) (q : ℕ) : dirAt (freeChain s e) q = dirAt s q := by
  unfold freeChain
  split_ifs <;> rfl

theorem place_freeChain (s : State) (e : Entry) (q : ℕ) : (freeChain s e).place q =
    if e.isDir = true ∧ s.place q = some e.cluster then none else s.place q := by
  unfold freeChain
  by_cases hdir : e.isDir = true
  · rw [if_pos hdir]
    simp only [hdir, true_and]
  · rw [if_neg hdir, if_neg fun h => hdir h.1]

/-- The clusters of a directory without entries, whose entry was deleted, are freed. -/
theorem Inv.freeChain (h : Inv e.dir? ex s)
    (hempty : e.isDir = true → ∀ m < s.nrSlots, s.place m = some e.cluster → s.entry m = none) :
    Inv none ex (freeChain s e) := by
  have hplace : ∀ q, s.entry q ≠ none → (Parents.freeChain s e).place q = s.place q := by
    intro q hq
    rw [place_freeChain, if_neg]
    rintro ⟨hdir, hplace⟩
    exact hq (hempty hdir q (h.volume.slots q hq).2 hplace)
  have hcontains : ∀ m q, Contains (Parents.freeChain s e) m q → Contains s m q := by
    rintro m q ⟨c, hc, hm⟩
    rw [place_freeChain] at hc
    split_ifs at hc
    exact ⟨c, hc, (dirAt_freeChain s e m).symm.trans hm⟩
  refine ⟨⟨fun q hq => ?_, fun q hq => ?_, fun q hq hself => ?_, fun q r c hq hr => ?_⟩, fun q hq hroot => ?_,
    fun q e' hq hdir hread => ?_, fun q hq c hc hcurrent => ?_⟩
  · rw [entry_freeChain] at hq
    have hslots := h.volume.slots q hq
    unfold Parents.freeChain
    split_ifs <;> exact hslots
  · rw [entry_freeChain] at hq
    refine .inl ?_
    obtain ⟨m, c, hc, hm⟩ | ⟨hdir, horphan⟩ := h.volume.placed q hq
    · exact ⟨m, c, (hplace q hq).trans hc, (dirAt_freeChain s e m).trans hm⟩
    · unfold Entry.dir? at hdir horphan
      split_ifs at hdir horphan with hisDir
      · exact absurd (hempty hisDir q (h.volume.slots q hq).2 horphan) hq
      · exact absurd rfl hdir
  · rw [entry_freeChain] at hq
    exact h.volume.irrefl q hq (hcontains q q hself)
  · rw [dirAt_freeChain] at hq hr
    exact h.volume.unique q r c hq hr
  · rw [entry_freeChain] at hq
    rw [inode_freeChain]
    exact h.dead q hq hroot
  · rw [entry_freeChain] at hq
    rw [inode_freeChain] at hread ⊢
    exact h.files q e' hq hdir hread
  · rw [dirAt_freeChain] at hc
    rw [inode_freeChain] at hcurrent ⊢
    obtain ⟨hdir, hcluster, hparent⟩ := h.right q hq c hc hcurrent
    exact ⟨hdir, hcluster, fun hroot m hm => hparent hroot m (hcontains m q hm)⟩

theorem entry_addEntry (s : State) (d n q : ℕ) (e : Entry) :
    (addEntry s d n e).entry q = if q = n then some e else s.entry q := by
  by_cases hq : q = n
  · rw [if_pos hq, hq]
    exact update_self n (some e) s.entry
  · rw [if_neg hq]
    exact update_of_ne hq (some e) s.entry

theorem place_addEntry (s : State) (d n q : ℕ) (e : Entry) :
    (addEntry s d n e).place q = if q = n then some (s.inode d).startCluster else s.place q := by
  by_cases hq : q = n
  · rw [if_pos hq, hq]
    exact update_self n (some _) s.place
  · rw [if_neg hq]
    exact update_of_ne hq (some _) s.place

theorem dirAt_addEntry (hn : n ≠ rootIno) (d q : ℕ) (e : Entry) :
    dirAt (addEntry s d n e) q = if q = n then (if e.isDir then some e.cluster else none) else dirAt s q := by
  by_cases hq : q = n
  · rw [if_pos hq, hq, dirAt_of_ne hn, entry_addEntry, if_pos rfl, Option.bind_some]
  · rw [if_neg hq]
    exact dirAt_congr rfl (by rw [entry_addEntry, if_neg hq])

/-- The slot of a directory that was not removed, for a new entry. -/
structure Slot (s : State) (d n : ℕ) : Prop where
  range : rootIno < n ∧ n < s.nrSlots
  live : dirAt s d = some (s.inode d).startCluster

/-- An entry is added. Its directory is new, or is on its way and the inodes of its directories remember the
number that it gets. -/
theorem Inv.addEntry (h : Inv orphan ex s) (hslot : Slot s d n) (hnone : s.entry n = none)
    (horphan : orphan = none ∨ orphan = e.dir?) (hunique : ∀ c, e.dir? = some c → ∀ m, dirAt s m ≠ some c)
    (hchildren : ∀ c, e.dir? = some c → ∀ q, q ≠ rootIno → s.place q = some c → (dirAt s q).isSome = true →
      (s.inode q).Current → q ∈ ex ∨ (s.inode q).parentIno = n) : Inv none (n :: ex) (addEntry s d n e) := by
  have hroot : n ≠ rootIno := Nat.ne_of_gt hslot.range.1
  have hdn : d ≠ n := by
    rintro rfl
    have hlive := hslot.live
    rw [dirAt_of_none hroot hnone] at hlive
    cases hlive
  have hold : ∀ q, q ≠ n → dirAt (Parents.addEntry s d n e) q = dirAt s q := fun q hq => by
    rw [dirAt_addEntry hroot, if_neg hq]
  have hnew : dirAt (Parents.addEntry s d n e) n = e.dir? := by
    rw [dirAt_addEntry hroot, if_pos rfl]
    rfl
  have hplace : ∀ q, q ≠ n → (Parents.addEntry s d n e).place q = s.place q := fun q hq => by
    rw [place_addEntry, if_neg hq]
  refine ⟨⟨fun q hq => ?_, fun q hq => .inl ?_, fun q hq hself => ?_, fun q r c hq hr => ?_⟩, fun q hq hqroot => ?_,
    fun q e' hq hdir hread => ?_, fun q hq c hc hcurrent => ?_⟩
  · by_cases hqn : q = n
    · exact hqn ▸ hslot.range
    · rw [entry_addEntry, if_neg hqn] at hq
      exact h.volume.slots q hq
  · by_cases hqn : q = n
    · subst hqn
      refine ⟨d, _, ?_, (hold d hdn).trans hslot.live⟩
      rw [place_addEntry, if_pos rfl]
    · rw [entry_addEntry, if_neg hqn] at hq
      obtain ⟨m, c, hc, hm⟩ | ⟨hne, hc⟩ := h.volume.placed q hq
      · have hmn : m ≠ n := by
          rintro rfl
          rw [dirAt_of_none hroot hnone] at hm
          cases hm
        exact ⟨m, c, (hplace q hqn).trans hc, (hold m hmn).trans hm⟩
      · have hdir := horphan.resolve_left hne
        obtain ⟨c, hc'⟩ := Option.ne_none_iff_exists'.mp hne
        refine ⟨n, c, ?_, ?_⟩
        · rw [hplace q hqn, hc, hc']
        · rw [hnew, ← hdir, hc']
  · obtain ⟨c, hc, hqc⟩ := hself
    by_cases hqn : q = n
    · rw [hqn, hnew] at hqc
      rw [hqn, place_addEntry, if_pos rfl] at hc
      exact hunique c hqc d (hslot.live.trans hc)
    · rw [entry_addEntry, if_neg hqn] at hq
      rw [hplace q hqn] at hc
      rw [hold q hqn] at hqc
      exact h.volume.irrefl q hq ⟨c, hc, hqc⟩
  · by_cases hqn : q = n
    · by_cases hrn : r = n
      · exact hqn.trans hrn.symm
      · rw [hqn, hnew] at hq
        rw [hold r hrn] at hr
        exact absurd hr (hunique c hq r)
    · rw [hold q hqn] at hq
      by_cases hrn : r = n
      · rw [hrn, hnew] at hr
        exact absurd hq (hunique c hr q)
      · rw [hold r hrn] at hr
        exact h.volume.unique q r c hq hr
  · rw [inode_addEntry]
    split_ifs with hqn
    · rfl
    · rw [entry_addEntry, if_neg hqn] at hq
      exact h.dead q hq hqroot
  · rw [inode_addEntry] at hread ⊢
    split_ifs at hread ⊢ with hqn
    rw [entry_addEntry, if_neg hqn] at hq
    exact h.files q e' hq hdir hread
  · rw [List.mem_cons, not_or] at hq
    obtain ⟨hqn, hq⟩ := hq
    rw [hold q hqn] at hc
    rw [inode_addEntry, if_neg hqn] at hcurrent ⊢
    obtain ⟨hdir, hcluster, hparent⟩ := h.right q hq c hc hcurrent
    refine ⟨hdir, hcluster, fun hqroot m hm => ?_⟩
    obtain ⟨c', hc', hm⟩ := hm
    rw [hplace q hqn] at hc'
    by_cases hmn : m = n
    · rw [hmn, hnew] at hm
      rw [hmn]
      exact (hchildren c' hm q hqroot hc' (by rw [hc]; rfl) hcurrent).resolve_left hq
    · exact hparent hqroot m ⟨c', hc', (hold m hmn).symm.trans hm⟩

/-! ## Calls -/

theorem isHeld_iff : isHeld s d = true ↔ 0 < (s.inode d).count ∧ (s.inode d).isDir = true := by
  simp [isHeld]

/-- A directory in use that was not removed has its first cluster in memory. -/
theorem Inv.held (h : Inv orphan ex s) (hex : d ∉ ex) (hheld : isHeld s d = true) (hlive : Live s d) :
    dirAt s d = some (s.inode d).startCluster := by
  obtain ⟨c, hc⟩ := Option.isSome_iff_exists.mp hlive
  rw [hc, (h.right d hex c hc (.inr (isHeld_iff.mp hheld).1)).2.1]

theorem find_some (h : find s d n = some e) :
    isHeld s d = true ∧ s.place n = some (s.inode d).startCluster ∧ s.entry n = some e := by
  unfold find at h
  split_ifs at h with hfound
  exact ⟨hfound.1, hfound.2, h⟩

theorem Inv.found (h : Inv orphan [] s) (hlive : Live s d) (hfind : find s d n = some e) :
    s.entry n = some e ∧ Contains s d n ∧ HasInode s n := by
  obtain ⟨hheld, hplace, hn⟩ := find_some hfind
  refine ⟨hn, ⟨_, hplace, h.held (by simp) hheld hlive⟩, .inr ?_⟩
  rw [hn]
  exact Option.some_ne_none e

theorem Inv.fatLookup (h : Inv none [] s) (hlive : Live s d) (hfind : find s d n = some e) :
    Inv none [] (fatLookup s d n) := by
  obtain ⟨hn, hcontains, hhas⟩ := h.found hlive hfind
  obtain ⟨hkind, hcluster⟩ := h.iget_kind (by simp) hn
  have honly := onlyInode_iget s n
  refine (h.iget hhas).setParent (e := e) ?_ hkind hcluster (honly.contains_iff.mpr hcontains)
  rw [honly.entry]
  exact hn

theorem Inv.fatLookupDotdot (h : Inv none [] s) (hgood : ∀ p ∈ dotdot s d, p = rootIno ∨ Known s p) :
    Inv none [] (fatLookupDotdot s d) := by
  unfold Parents.fatLookupDotdot
  split
  · rename_i p hp
    have hkept := hgood p hp
    refine h.iget_kept ?_ (hkept.imp id fun hknown _ => hknown)
    by_cases hroot : p = rootIno
    · exact .inl hroot
    · refine .inr fun hnone => ?_
      have hread := h.dead p hnone hroot
      rw [hkept.resolve_left hroot] at hread
      cases hread
  · exact h

theorem Inv.slot {l : List ℕ} (h : Inv none [] s) (hheld : isHeld s d = true) (hlive : Live s d)
    (hslot : CanTake s d n l) : Slot s d n :=
  ⟨⟨hslot.1, hslot.2.1⟩, h.held (by simp) hheld hlive⟩

theorem Inv.fatCreate (h : Inv none [] s) (hslot : Slot s d n) (hnone : s.entry n = none) :
    Inv none [] (fatCreate s d n) := by
  have hroot : n ≠ rootIno := Nat.ne_of_gt hslot.range.1
  have hadd : Inv none [n] (Parents.addEntry s d n ⟨false, 0⟩) :=
    h.addEntry hslot hnone (.inl rfl) (by simp [Entry.dir?]) (by simp [Entry.dir?])
  have hentry : (Parents.addEntry s d n ⟨false, 0⟩).entry n = some ⟨false, 0⟩ := by
    rw [entry_addEntry, if_pos rfl]
  have hhas : HasInode (Parents.addEntry s d n ⟨false, 0⟩) n := .inr (by rw [hentry]; exact Option.some_ne_none _)
  refine (hadd.iget hhas).restore (n := n) (fun c hc _ => ?_) (by simp)
  rw [(onlyInode_iget _ n).dirAt_eq, dirAt_of_file hroot hentry rfl] at hc
  cases hc

theorem iget_fresh (hroot : n ≠ rootIno) (hread : (s.inode n).upToDate = false) (hn : s.entry n = some e) :
    ((iget s n).inode n).isDir = e.isDir ∧ ((iget s n).inode n).startCluster = e.cluster := by
  rw [inode_iget, hread]
  simp [fatReadInode, hroot, hn]

theorem Inv.fatMkdir {cluster : ℕ} (h : Inv none [] s) (hslot : Slot s d n) (hnone : s.entry n = none)
    (hfree : IsFree s cluster) : Inv none [] (fatMkdir s d n cluster) := by
  have hroot : n ≠ rootIno := Nat.ne_of_gt hslot.range.1
  have hlt : ∀ m c, dirAt s m = some c → m < s.nrSlots := by
    intro m c hm
    by_cases hmroot : m = rootIno
    · have hrange := hslot.range
      omega
    · exact (h.volume.slots m (by rw [entry_of_dirAt hmroot hm]; exact Option.some_ne_none _)).2
  have hadd : Inv none [n] (Parents.addEntry s d n ⟨true, cluster⟩) := by
    refine h.addEntry hslot hnone (.inl rfl) (fun c hc m hm => ?_) fun c hc q _ hq hdir _ => ?_
    · obtain rfl : cluster = c := by simpa [Entry.dir?] using hc
      exact (hfree m (hlt m _ hm)).2 hm
    · obtain rfl : cluster = c := by simpa [Entry.dir?] using hc
      obtain ⟨c', hc'⟩ := Option.isSome_iff_exists.mp hdir
      exact absurd hq (hfree q (hlt q c' hc')).1
  have hentry : (Parents.addEntry s d n ⟨true, cluster⟩).entry n = some ⟨true, cluster⟩ := by
    rw [entry_addEntry, if_pos rfl]
  have hhas : HasInode (Parents.addEntry s d n ⟨true, cluster⟩) n := .inr (by rw [hentry]; exact Option.some_ne_none _)
  have hread : ((Parents.addEntry s d n ⟨true, cluster⟩).inode n).upToDate = false := by
    rw [inode_addEntry, if_pos rfl]
  obtain ⟨hkind, hcluster⟩ := iget_fresh hroot hread hentry
  have honly := onlyInode_iget (Parents.addEntry s d n ⟨true, cluster⟩) n
  have hgot : Inv none [n] (Parents.iget (Parents.addEntry s d n ⟨true, cluster⟩) n) := (hadd.iget hhas).mono (by simp)
  refine (hgot.setParent (e := ⟨true, cluster⟩) ?_ hkind (fun _ => hcluster) ?_).iput
  · rw [honly.entry]
    exact hentry
  · rw [honly.contains_iff]
    refine ⟨(s.inode d).startCluster, ?_, ?_⟩
    · rw [place_addEntry, if_pos rfl]
    · have hdn : d ≠ n := by
        rintro rfl
        have hlive := hslot.live
        rw [dirAt_of_none hroot hnone] at hlive
        cases hlive
      rw [dirAt_addEntry hroot, if_neg hdn]
      exact hslot.live

theorem Inv.fatUnlink (h : Inv none [] s) (hn : s.entry n = some e) (hfile : e.isDir = false) :
    Inv none [] (fatUnlink s n) := by
  have hdel : Inv e.dir? [] (Parents.delEntry s n) := h.delEntry hn fun _ hq _ => hq
  rwa [Entry.dir?, if_neg (by simp [hfile])] at hdel

theorem dirIsEmpty_iff : dirIsEmpty s i = true ↔
    ∀ m < s.nrSlots, s.place m = some i.startCluster → s.entry m = none := by
  simp [dirIsEmpty]

theorem Inv.remove (h : Inv none ex s) (hn : s.entry n = some e) (hex : ∀ q, q ∉ ex' → q ≠ n → q ∉ ex)
    (hempty : e.isDir = true → ∀ m < s.nrSlots, s.place m = some e.cluster → s.entry m = none) :
    Inv none ex' (Parents.freeChain (Parents.delEntry s n) e) := by
  refine (h.delEntry hn hex).freeChain fun hdir m hm hplace => ?_
  rw [entry_delEntry]
  split_ifs
  · rfl
  · exact hempty hdir m hm hplace

theorem Inv.fatRmdir (h : Inv none [] s) (hlive : Live s d) (hfind : find s d n = some e) (hdir : e.isDir = true)
    (hkept : dirIsEmpty (Parents.iget s n) ((Parents.iget s n).inode n) = false → Kept s n) :
    Inv none [] (fatRmdir s n e) := by
  obtain ⟨hn, -, hhas⟩ := h.found hlive hfind
  have hn' : (Parents.iget s n).entry n = some e := by
    rw [(onlyInode_iget s n).entry]
    exact hn
  unfold Parents.fatRmdir
  dsimp only
  split_ifs with hempty
  · refine ((h.iget hhas).remove hn' (by simp) fun _ => ?_).iput
    rw [dirIsEmpty_iff, (h.iget_kind (by simp) hn).2 hdir] at hempty
    exact hempty
  · exact (h.iget_kept hhas (.inr (hkept (by simpa using hempty)))).iput

/-- What the moved entry needs: the directory on its way is not itself the one that gets it, and none of its
directories can be used when it gets another number. -/
structure Moves (s : State) (n d' n' : ℕ) (e : Entry) : Prop where
  range : rootIno < n' ∧ n' < s.nrSlots
  live : dirAt s d' = some (s.inode d').startCluster
  free : s.entry n' = none ∨ n' = n
  ne : d' ≠ n
  children : n' ≠ n → e.isDir = true → ∀ q, q ≠ rootIno → s.place q = some e.cluster → (dirAt s q).isSome = true →
    ¬ (s.inode q).Current

theorem Inv.relocate {d' : ℕ} (h : Inv none ex s) (hn : s.entry n = some e) (hmoves : Moves s n d' n' e)
    (hex : ∀ q, q ∉ ex' → q ≠ n → q ∉ ex) (hin : ∀ q ∈ ex, q = n ∨ q ∈ ex') :
    Inv none (n' :: ex') (Parents.addEntry (Parents.delEntry s n) d' n' e) := by
  have hroot := h.volume.ne_root hn
  have hinode : ∀ q, q ≠ n → (Parents.delEntry s n).inode q = s.inode q := fun q hq => by
    rw [inode_delEntry, if_neg hq]
  have hslot : Slot (Parents.delEntry s n) d' n' := by
    refine ⟨hmoves.range, ?_⟩
    rw [dirAt_delEntry hroot, if_neg hmoves.ne, hinode d' hmoves.ne]
    exact hmoves.live
  refine (h.delEntry hn hex).addEntry hslot ?_ (.inr rfl) (fun c hc m hm => ?_)
    fun c hc q hqroot hplace hdir hcurrent => ?_
  · rw [entry_delEntry]
    split_ifs with hsame
    · rfl
    · exact hmoves.free.resolve_right hsame
  · rw [dirAt_delEntry hroot] at hm
    split_ifs at hm with hmn
    unfold Entry.dir? at hc
    split_ifs at hc with hisDir
    cases hc
    exact hmn (h.volume.unique m n _ hm (dirAt_of_entry hroot hn hisDir))
  · unfold Entry.dir? at hc
    split_ifs at hc with hisDir
    cases hc
    rw [dirAt_delEntry hroot] at hdir
    split_ifs at hdir with hqn
    · cases hdir
    · rw [hinode q hqn] at hcurrent ⊢
      by_cases hsame : n' = n
      · by_cases hq : q ∈ ex
        · exact .inl ((hin q hq).resolve_left hqn)
        · obtain ⟨c, hc⟩ := Option.isSome_iff_exists.mp hdir
          obtain ⟨-, -, hparent⟩ := h.right q hq c hc hcurrent
          exact .inr ((hparent hqroot n ⟨_, hplace, dirAt_of_entry hroot hn hisDir⟩).trans hsame.symm)
      · exact absurd hcurrent (hmoves.children hsame hisDir q hqroot hplace hdir)

theorem Inv.setParent_dead (h : Inv orphan ex s) (hn : s.entry n = none) (hroot : n ≠ rootIno) :
    Inv orphan ex (Parents.setParent s n d) := by
  unfold Parents.setParent
  split_ifs
  · refine h.only (onlyInode_setInode s n _) ?_ ?_ (fun _ c hc => ?_) fun _ hq _ => hq
    · rw [inode_setInode]
      exact h.dead n
    · rw [inode_setInode]
      exact h.files n
    · rw [(onlyInode_setInode s n _).dirAt_eq, dirAt_of_none hroot hn] at hc
      cases hc
  · exact h

/-- The inode of a moved directory remembers its new directory when it keeps its number. -/
theorem Inv.moveEntry {d' : ℕ} (h : Inv none [n] s) (hn : s.entry n = some e) (hmoves : Moves s n d' n' e)
    (hkind : (s.inode n).isDir = e.isDir) (hcluster : e.isDir = true → (s.inode n).startCluster = e.cluster) :
    Inv none (if n' = n then [] else [n']) (moveEntry s n d' n' e) := by
  have hroot := h.volume.ne_root hn
  have hmoved : Inv none [n'] (Parents.addEntry (Parents.delEntry s n) d' n' e) :=
    h.relocate hn hmoves (by simp) (by simp)
  have hroot' : n' ≠ rootIno := Nat.ne_of_gt hmoves.range.1
  have hinode : (Parents.addEntry (Parents.delEntry s n) d' n' e).inode n = { s.inode n with upToDate := false } := by
    rw [inode_addEntry]
    by_cases hsame : n = n'
    · subst hsame
      rw [if_pos rfl, inode_delEntry, if_pos rfl]
    · rw [if_neg hsame, inode_delEntry, if_pos rfl]
  unfold Parents.moveEntry
  split_ifs with hsame
  · subst hsame
    refine hmoved.setParent (e := e) ?_ (by rw [hinode]; exact hkind) (by rw [hinode]; exact hcluster) ?_
    · rw [entry_addEntry, if_pos rfl]
    · refine ⟨(s.inode d').startCluster, ?_, ?_⟩
      · rw [place_addEntry, if_pos rfl, inode_delEntry, if_neg hmoves.ne]
      · rw [dirAt_addEntry hroot', if_neg hmoves.ne, dirAt_delEntry hroot, if_neg hmoves.ne]
        exact hmoves.live
  · refine hmoved.setParent_dead ?_ hroot
    rw [entry_addEntry, if_neg (Ne.symm hsame), entry_delEntry, if_pos rfl]

/-- What a call has that moves an entry, before its first `iget`. -/
structure CanRename (s : State) (n d' n' : ℕ) (e : Entry) : Prop where
  entry : s.entry n = some e
  range : rootIno < n' ∧ n' < s.nrSlots
  held : isHeld s d' = true
  live : Live s d'
  ne : d' ≠ n
  move : CanMove s n n'

theorem Inv.count_zero (h : Inv orphan ex s) (hexit : s.entry n = some e) (hmove : CanMove s n n')
    (hne : n' ≠ n) (hdir : e.isDir = true) : (s.inode n').count = 0 :=
  (hmove e.cluster (dirAt_of_entry (h.volume.ne_root hexit) hexit hdir) hne).2.1

theorem Inv.children {d' : ℕ} (h : Inv none [] s) (hcan : CanRename s n d' n' e) (hne : n' ≠ n)
    (hdir : e.isDir = true) (hqroot : q ≠ rootIno) (hplace : s.place q = some e.cluster)
    (hq : (dirAt s q).isSome = true) : q ≠ n ∧ ¬ (s.inode q).Current := by
  have hdirAt := dirAt_of_entry (h.volume.ne_root hcan.entry) hcan.entry hdir
  obtain ⟨c, hc⟩ := Option.isSome_iff_exists.mp hq
  have hlt := (h.volume.slots q (by rw [entry_of_dirAt hqroot hc]; exact Option.some_ne_none _)).2
  refine ⟨?_, (hcan.move e.cluster hdirAt hne).2.2 q hlt hplace hq⟩
  rintro rfl
  exact h.volume.irrefl q (by rw [hcan.entry]; exact Option.some_ne_none e) ⟨_, hplace, hdirAt⟩

theorem Inv.moves {d' : ℕ} (h : Inv none [] s) (hcan : CanRename s n d' n' e) (hn' : s.entry n' = none ∨ n' = n) :
    Moves (Parents.iget s n) n d' n' e := by
  have honly := onlyInode_iget s n
  refine ⟨?_, ?_, ?_, hcan.ne, fun hne hdir q hqroot hplace hq hcurrent => ?_⟩
  · rw [honly.nrSlots]
    exact hcan.range
  · rw [honly.dirAt_eq, honly.inode d' hcan.ne]
    exact h.held (by simp) hcan.held hcan.live
  · rw [honly.entry]
    exact hn'
  · rw [honly.place] at hplace
    rw [honly.dirAt_eq] at hq
    obtain ⟨hqn, hidle⟩ := h.children hcan hne hdir hqroot hplace hq
    rw [honly.inode q hqn] at hcurrent
    exact hidle hcurrent

theorem entry_moveEntry (s : State) (n d' n' : ℕ) (e : Entry) : (moveEntry s n d' n' e).entry n' = some e := by
  rw [moveEntry, (onlyInode_setParent _ n d').entry, entry_addEntry, if_pos rfl]

theorem inode_moveEntry (s : State) (d' : ℕ) (e : Entry) (hne : n' ≠ n) :
    (moveEntry s n d' n' e).inode n' = { s.inode n' with upToDate := false } := by
  rw [moveEntry, (onlyInode_setParent _ n d').inode n' hne, inode_addEntry, if_pos rfl, inode_delEntry, if_neg hne]

/-- A call that moved an entry is over, and nobody has the inode of the new number. -/
theorem Inv.finish (h : Inv none (if n' = n then [] else [n']) s) (hn' : s.entry n' = some e)
    (hidle : n' ≠ n → e.isDir = true → ¬ (s.inode n').Current) : Inv none [] s := by
  by_cases hne : n' = n
  · rwa [if_pos hne] at h
  · rw [if_neg hne] at h
    refine h.restore (n := n') (fun c hc hcurrent => ?_) (by simp)
    cases hdir : e.isDir with
    | true => exact absurd hcurrent (hidle hne hdir)
    | false =>
      rw [dirAt_of_file (h.volume.ne_root hn') hn' hdir] at hc
      cases hc

theorem not_current (hread : i.upToDate = false) (hcount : i.count = 0) : ¬ i.Current := by
  rintro (h | h)
  · rw [hread] at h
    cases h
  · omega

theorem inode_iput (s : State) (n q : ℕ) :
    (iput s n).inode q = if q = n then { s.inode n with count := (s.inode n).count - 1 } else s.inode q := by
  by_cases hq : q = n
  · subst hq
    rw [if_pos rfl]
    exact inode_setInode s q _
  · rw [if_neg hq, (onlyInode_iput s n).inode q hq]

theorem Inv.fatRename {d' : ℕ} (h : Inv none [] s) (hcan : CanRename s n d' n' e)
    (hn' : s.entry n' = none ∨ n' = n) : Inv none [] (fatRename s n d' e none n') := by
  have honly := onlyInode_iget s n
  obtain ⟨hkind, hcluster⟩ := h.iget_kind (by simp) hcan.entry
  have hhas : HasInode s n := .inr (by rw [hcan.entry]; exact Option.some_ne_none e)
  have hn₁ : (Parents.iget s n).entry n = some e := by
    rw [honly.entry]
    exact hcan.entry
  have hmoved := (h.iget hhas).moveEntry hn₁ (h.moves hcan hn') hkind hcluster
  unfold Parents.fatRename
  dsimp only
  refine (hmoved.iput (n := n)).finish (e := e) ?_ fun hne hdir => ?_
  · rw [(onlyInode_iput _ n).entry]
    exact entry_moveEntry _ n d' n' e
  · rw [(onlyInode_iput _ n).inode n' hne, inode_moveEntry _ d' e hne, honly.inode n' hne]
    exact not_current rfl (h.count_zero hcan.entry hcan.move hne hdir)

theorem Inv.fatRename_over {d' t : ℕ} {et : Entry} (h : Inv none [] s) (hcan : CanRename s n d' n' e)
    (hnt : n ≠ t) (ht : s.entry t = some et) (hd' : Contains s d' t) (hn' : s.entry n' = none ∨ n' = n ∨ n' = t)
    (hkept : targetRefused (Parents.iget (Parents.iget s n) t) n t et = true → Kept s n ∧ Kept s t) :
    Inv none [] (Parents.fatRename s n d' e (some (t, et)) n') := by
  have honly := onlyInode_iget s n
  have honly' := onlyInode_iget (Parents.iget s n) t
  have hhas : HasInode s n := .inr (by rw [hcan.entry]; exact Option.some_ne_none e)
  have ht₁ : (Parents.iget s n).entry t = some et := by
    rw [honly.entry]
    exact ht
  have hhas' : HasInode (Parents.iget s n) t := .inr (by rw [ht₁]; exact Option.some_ne_none et)
  unfold Parents.fatRename
  dsimp only
  split_ifs with hrefused
  · -- The call looks at both and gives them back.
    obtain ⟨hkn, hkt⟩ := hkept hrefused
    have hkt' : Kept (Parents.iget s n) t := by
      rw [Kept, Live, Known, honly.dirAt_eq, honly.inode t hnt.symm]
      exact hkt
    exact (((h.iget_kept hhas (.inr hkn)).iget_kept hhas' (.inr hkt')).iput).iput
  · have hinv₁ : Inv none [n] (Parents.iget s n) := h.iget hhas
    have hinv₂ : Inv none [t, n] (Parents.iget (Parents.iget s n) t) := hinv₁.iget hhas'
    have ht₂ : (Parents.iget (Parents.iget s n) t).entry t = some et := by
      rw [honly'.entry]
      exact ht₁
    have hempty : et.isDir = true → ∀ m < (Parents.iget (Parents.iget s n) t).nrSlots,
        (Parents.iget (Parents.iget s n) t).place m = some et.cluster →
          (Parents.iget (Parents.iget s n) t).entry m = none := by
      intro hdir
      have hdirEmpty : dirIsEmpty (Parents.iget (Parents.iget s n) t)
          ((Parents.iget (Parents.iget s n) t).inode t) = true := by
        by_contra hfull
        refine hrefused ?_
        rw [targetRefused, decide_eq_true_eq]
        exact .inr (.inr ⟨hdir, hfull⟩)
      rw [dirIsEmpty_iff, (hinv₁.iget_kind (by simp [hnt.symm]) ht₁).2 hdir] at hdirEmpty
      exact hdirEmpty
    have hinv₃ : Inv none [n] (Parents.freeChain (Parents.delEntry (Parents.iget (Parents.iget s n) t) t) et) :=
      hinv₂.remove ht₂ (fun q hq hqt => by simpa [hqt] using hq) hempty
    have htroot := h.volume.ne_root ht
    have hd't : d' ≠ t := by
      rintro rfl
      exact h.volume.irrefl d' (by rw [ht]; exact Option.some_ne_none et) hd'
    -- What the removal of the target leaves of the rest.
    have hentry₃ : ∀ q, (Parents.freeChain (Parents.delEntry (Parents.iget (Parents.iget s n) t) t) et).entry q =
        if q = t then none else s.entry q := by
      intro q
      rw [entry_freeChain, entry_delEntry, honly'.entry, honly.entry]
    have hdirAt₃ : ∀ q, dirAt (Parents.freeChain (Parents.delEntry (Parents.iget (Parents.iget s n) t) t) et) q =
        if q = t then none else dirAt s q := by
      intro q
      rw [dirAt_freeChain, dirAt_delEntry htroot, honly'.dirAt_eq, honly.dirAt_eq]
    have hinode₃ : ∀ q, q ≠ t →
        (Parents.freeChain (Parents.delEntry (Parents.iget (Parents.iget s n) t) t) et).inode q =
          (Parents.iget s n).inode q := by
      intro q hq
      rw [inode_freeChain, inode_delEntry, if_neg hq, honly'.inode q hq]
    have hmoves : Moves (Parents.freeChain (Parents.delEntry (Parents.iget (Parents.iget s n) t) t) et) n d' n' e := by
      refine ⟨?_, ?_, ?_, hcan.ne, fun hne hdir q hqroot hplace hq hcurrent => ?_⟩
      · have hrange := hcan.range
        unfold Parents.freeChain
        split_ifs
        all_goals
          change rootIno < n' ∧ n' < (Parents.iget (Parents.iget s n) t).nrSlots
          rw [honly'.nrSlots, honly.nrSlots]
          exact hrange
      · rw [hdirAt₃, if_neg hd't, hinode₃ d' hd't, honly.inode d' hcan.ne]
        exact h.held (by simp) hcan.held hcan.live
      · rw [hentry₃]
        split_ifs with hnt'
        · exact .inl rfl
        · exact hn'.imp id fun hor => hor.resolve_right hnt'
      · rw [place_freeChain] at hplace
        split_ifs at hplace
        rw [hdirAt₃] at hq
        split_ifs at hq with hqt
        · cases hq
        · change (Parents.iget (Parents.iget s n) t).place q = _ at hplace
          rw [honly'.place, honly.place] at hplace
          obtain ⟨hqn, hidle⟩ := h.children hcan hne hdir hqroot hplace hq
          rw [hinode₃ q hqt, honly.inode q hqn] at hcurrent
          exact hidle hcurrent
    obtain ⟨hkind, hcluster⟩ := h.iget_kind (by simp) hcan.entry
    rw [← hinode₃ n hnt] at hkind hcluster
    have hn₃ : (Parents.freeChain (Parents.delEntry (Parents.iget (Parents.iget s n) t) t) et).entry n = some e := by
      rw [hentry₃, if_neg hnt]
      exact hcan.entry
    have hmoved := hinv₃.moveEntry hn₃ hmoves hkind hcluster
    refine ((hmoved.iput (n := t)).iput (n := n)).finish (e := e) ?_ fun hne hdir => ?_
    · rw [(onlyInode_iput _ n).entry, (onlyInode_iput _ t).entry]
      exact entry_moveEntry _ n d' n' e
    · have hcount := h.count_zero hcan.entry hcan.move hne hdir
      rw [(onlyInode_iput _ n).inode n' hne, inode_iput]
      split_ifs with hnt'
      · subst hnt'
        rw [inode_moveEntry _ d' e hne, inode_freeChain, inode_delEntry, if_pos rfl]
        refine not_current rfl ?_
        change ((Parents.iget (Parents.iget s n) n').inode n').count - 1 = 0
        rw [count_iget, honly.inode n' hne, hcount]
      · rw [inode_moveEntry _ d' e hne, hinode₃ n' hnt', honly.inode n' hne]
        exact not_current rfl hcount

theorem Inv.fatRenameFails {r : ℕ} (h : Inv none [] s) (hcan : CanRename s n d r e) (hd : Contains s d n)
    (hr : s.entry r = none ∨ r = n) : Inv none [] (fatRenameFails s n d r e) := by
  have honly := onlyInode_iget s n
  have hhas : HasInode s n := .inr (by rw [hcan.entry]; exact Option.some_ne_none e)
  have hn₁ : (Parents.iget s n).entry n = some e := by
    rw [honly.entry]
    exact hcan.entry
  have hmoved : Inv none [r] (Parents.addEntry (Parents.delEntry (Parents.iget s n) n) d r e) :=
    (h.iget hhas).relocate hn₁ (h.moves hcan hr) (by simp) (by simp)
  have hentry : (Parents.addEntry (Parents.delEntry (Parents.iget s n) n) d r e).entry r = some e := by
    rw [entry_addEntry, if_pos rfl]
  have hrroot := hmoved.volume.ne_root hentry
  have hroot := h.volume.ne_root hcan.entry
  refine (hmoved.iput (n := n)).restore (n := r) (fun c hc hcurrent => ?_) (by simp)
  rw [(onlyInode_iput _ n).dirAt_eq] at hc
  have he := entry_of_dirAt hrroot hc
  rw [hentry] at he
  cases he
  rw [inode_iput] at hcurrent ⊢
  by_cases hrn : r = n
  · subst hrn
    rw [if_pos rfl, inode_addEntry, if_pos rfl, inode_delEntry, if_pos rfl] at hcurrent ⊢
    have hcount : 0 < (s.inode r).count := by
      have hpos := hcurrent.resolve_left (by simp)
      change 0 < ((Parents.iget s r).inode r).count - 1 at hpos
      rwa [count_iget, Nat.add_sub_cancel] at hpos
    obtain ⟨hisDir, hcluster⟩ := h.iget_kind (by simp) hcan.entry
    obtain ⟨-, -, hparent⟩ := h.right r (by simp) c (dirAt_of_entry hroot hcan.entry rfl) (.inr hcount)
    refine ⟨hisDir, hcluster rfl, fun _ m hm => ?_⟩
    rw [(onlyInode_iput _ r).contains_iff] at hm
    have hm' : d = m := by
      obtain ⟨c', hplace, hm'⟩ := hm
      rw [place_addEntry, if_pos rfl, inode_delEntry, if_neg hcan.ne, honly.inode d hcan.ne] at hplace
      refine hmoved.volume.unique d m c' ?_ hm'
      rw [dirAt_addEntry hrroot, if_neg hcan.ne, dirAt_delEntry hroot, if_neg hcan.ne, honly.dirAt_eq, ← hplace]
      exact h.held (by simp) hcan.held hcan.live
    rw [← hm', ← hparent hroot d hd]
    change ((Parents.iget s r).inode r).parentIno = _
    rw [inode_iget]
    split_ifs
    · rfl
    · simp [fatReadInode, hroot, hcan.entry]
  · rw [if_neg hrn, inode_addEntry, if_pos rfl, inode_delEntry, if_neg hrn, honly.inode r hrn] at hcurrent
    exact absurd hcurrent (not_current rfl (h.count_zero hcan.entry hcan.move hrn rfl))

/-! ## Runs -/

theorem Inv.canRename {d' : ℕ} {l : List ℕ} (h : Inv none [] s) (hn : s.entry n = some e) (hcontains : Contains s d n)
    (hheld : isHeld s d' = true) (hlive : Live s d') (htake : CanTake s d' n' l) (hmove : CanMove s n n') :
    CanRename s n d' n' e := by
  refine ⟨hn, ⟨htake.1, htake.2.1⟩, hheld, hlive, ?_, hmove⟩
  rintro rfl
  have hroot := h.volume.ne_root hn
  obtain ⟨c, hc⟩ := Option.isSome_iff_exists.mp hlive
  have hcluster := h.held (by simp) hheld hlive
  by_cases hne : n' = d'
  · -- The entry would be in its own directory.
    refine h.volume.irrefl d' (by rw [hn]; exact Option.some_ne_none e) ⟨_, ?_, hcluster⟩
    subst hne
    refine htake.2.2.2.resolve_left fun hnone => ?_
    obtain ⟨c', hplace, -⟩ := hcontains
    rw [hnone] at hplace
    cases hplace
  · have hzero := (hmove c hc hne).1
    have hpos := (isHeld_iff.mp hheld).1
    omega

theorem Inv.step {l : Label} (h : Inv none [] s) (hgood : Careful s l) (hstep : Step s l s') : Inv none [] s' := by
  unfold Step at hstep
  cases l with
  | lookup d n =>
    obtain ⟨e, hfind, rfl⟩ := Option.map_eq_some_iff.mp hstep
    exact h.fatLookup hgood hfind
  | dotdot d =>
    simp only [exec, Option.ite_none_right_eq_some, Option.some.injEq] at hstep
    obtain ⟨-, rfl⟩ := hstep
    exact h.fatLookupDotdot hgood.2
  | create d n =>
    simp only [exec, Option.ite_none_right_eq_some, Option.some.injEq] at hstep
    obtain ⟨⟨hheld, htake⟩, rfl⟩ := hstep
    exact h.fatCreate (h.slot hheld hgood htake) (htake.2.2.1.resolve_right (by simp))
  | mkdir d n cluster =>
    simp only [exec, Option.ite_none_right_eq_some, Option.some.injEq] at hstep
    obtain ⟨⟨hheld, htake, hfree⟩, rfl⟩ := hstep
    exact h.fatMkdir (h.slot hheld hgood htake) (htake.2.2.1.resolve_right (by simp)) hfree
  | unlink d n =>
    obtain ⟨e, hfind, hunlink⟩ := Option.bind_eq_some_iff.mp hstep
    split_ifs at hunlink with hdir
    cases hunlink
    exact h.fatUnlink (find_some hfind).2.2 (by simpa using hdir)
  | rmdir d n =>
    obtain ⟨e, hfind, hrmdir⟩ := Option.bind_eq_some_iff.mp hstep
    split_ifs at hrmdir with hdir
    cases hrmdir
    exact h.fatRmdir hgood.1 hfind hdir hgood.2
  | rename d n d' target n' =>
    obtain ⟨hlive, hlive', hmove, hkept⟩ := hgood
    cases target with
    | none =>
      obtain ⟨e, hfind, hrename⟩ := Option.bind_eq_some_iff.mp hstep
      split_ifs at hrename with hok
      cases hrename
      obtain ⟨hn, hcontains, -⟩ := h.found hlive hfind
      exact h.fatRename (h.canRename hn hcontains hok.1 hlive' hok.2 hmove) (hok.2.2.2.1.imp id (by simp))
    | some t =>
      obtain ⟨e, hfind, hrename⟩ := Option.bind_eq_some_iff.mp hstep
      obtain ⟨et, hfind', hrename⟩ := Option.bind_eq_some_iff.mp hrename
      split_ifs at hrename with hok
      cases hrename
      obtain ⟨hn, hcontains, -⟩ := h.found hlive hfind
      obtain ⟨ht, hcontains', -⟩ := h.found hlive' hfind'
      have hcan := h.canRename hn hcontains (find_some hfind').1 hlive' hok.2 hmove
      exact h.fatRename_over hcan hok.1 ht hcontains' (hok.2.2.2.1.imp id (by simp)) (hkept t rfl et ht)
  | renameFails d n r =>
    obtain ⟨e, hfind, hfails⟩ := Option.bind_eq_some_iff.mp hstep
    split_ifs at hfails with htake
    cases hfails
    obtain ⟨hn, hcontains, -⟩ := h.found hgood.1 hfind
    have hcan := h.canRename hn hcontains (find_some hfind).1 hgood.1 htake hgood.2
    exact h.fatRenameFails hcan hcontains (htake.2.2.1.imp id (by simp))
  | iref n =>
    simp only [exec, Option.ite_none_right_eq_some, Option.some.injEq] at hstep
    obtain ⟨hcount, rfl⟩ := hstep
    exact h.iref hcount
  | iput n =>
    simp only [exec, Option.ite_none_right_eq_some, Option.some.injEq] at hstep
    obtain ⟨-, rfl⟩ := hstep
    exact h.iput
  | clear n =>
    simp only [exec, Option.ite_none_right_eq_some, Option.some.injEq] at hstep
    obtain ⟨-, rfl⟩ := hstep
    exact h.clearInode

theorem Initial.inv (h : Initial s) : Inv none [] s := by
  have hblank : ∀ n, n ≠ rootIno → s.inode n = blank := fun n hn => by rw [State.inode, h.cache n hn]; rfl
  refine ⟨⟨h.volume.slots, fun n hn => .inl (h.volume.placed n hn), h.volume.irrefl, h.volume.unique⟩,
    fun n _ hroot => by rw [hblank n hroot]; rfl, fun n e hn _ _ => ?_, fun n _ c hc hcurrent => ?_⟩
  · have hlt := (h.volume.slots n (by rw [hn]; exact Option.some_ne_none e)).1
    rw [hblank n (by omega)]
    rfl
  · by_cases hroot : n = rootIno
    · subst hroot
      rw [dirAt_root] at hc
      rw [h.root]
      exact ⟨rfl, Option.some.inj hc, fun hne => absurd rfl hne⟩
    · rw [hblank n hroot] at hcurrent
      exact absurd hcurrent (not_current rfl rfl)

/-- A mounted volume without entries. -/
def volume : State where
  nrSlots := 40
  rootCluster := 2
  entry _ := none
  place n := if n = 10 ∨ n = 11 ∨ n = 12 then some 2 else none
  cache n := if n = rootIno then some ⟨1, true, true, 2, 0⟩ else none

theorem volume_initial : Initial volume := by
  refine ⟨⟨fun _ hn => absurd rfl hn, fun _ hn => absurd rfl hn, fun _ hn => absurd rfl hn, fun n m c hn hm => ?_⟩, rfl,
    fun n hn => if_neg hn⟩
  have hroot : ∀ q, dirAt volume q = some c → q = rootIno := by
    intro q hq
    by_contra hne
    rw [dirAt_of_none hne rfl] at hq
    cases hq
  rw [hroot n hn, hroot m hm]

/-- A directory and one in it. The task is in the inner one. -/
def nested : List Label := [.mkdir 1 10 3, .lookup 1 10, .mkdir 10 20 4, .lookup 10 20]

/-- The inner directory is moved to the root and back over an empty one, and a full one is not removed. -/
def tour : List Label :=
  nested ++ [.dotdot 20, .iput 10, .iput 20, .rename 10 20 1 none 11, .lookup 1 11, .rmdir 1 10, .iput 10, .mkdir 1 12 5,
    .iput 11, .clear 10, .rename 1 11 1 (some 12) 12, .lookup 1 12, .dotdot 12, .create 12 30, .rmdir 1 12]

theorem tour_replays : (replay Good exec volume tour).isSome := by decide +kernel

/-- The outer directory leaves the cache and is reached through `..` again. -/
def evicted : List Label := nested ++ [.iput 10, .clear 10, .dotdot 20]

/-- The outer directory is renamed. -/
def renamed : List Label := nested ++ [.iput 10, .rename 1 10 1 none 11]

end Mario.Fs.Fat.Parents
