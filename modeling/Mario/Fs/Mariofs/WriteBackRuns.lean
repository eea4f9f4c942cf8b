import Mario.Fs.Mariofs.WriteBack

/-!
# Written inodes are kept

The name in memory is the name in the slot, as long as no name in memory is longer than the name that comes
to its slot. Then every inode that was changed is written, and is read again as it was.
-/

namespace Mario.Fs.Mariofs.WriteBack

open Mario.Lib

variable {s s' : State} {p q d : ℕ} {x : Slot} {i : Inode} {a : Attr} {name : Bytes} {gone : Option ℕ}

/-! ## Strings -/

/-- The bytes behind a name are zeros. -/
def ZeroTail (l : Bytes) : Prop := ∃ k, l = cstr l ++ List.replicate k 0

theorem cstr_append_replicate (h : 0 ∉ name) (k : ℕ) : cstr (name ++ List.replicate k 0) = name := by
  induction name with
  | nil => cases k <;> rfl
  | cons c name ih =>
    have hc : c ≠ 0 := fun hc => h (hc ▸ List.mem_cons_self)
    have hrest := ih fun hin => h (List.mem_cons_of_mem c hin)
    rw [cstr] at hrest ⊢
    rw [List.cons_append, List.takeWhile_cons_of_pos (by simpa using hc), hrest]

theorem zero_notMem_cstr (l : Bytes) : 0 ∉ cstr l := by
  intro hin
  have hall := List.all_eq_true.mp (List.all_takeWhile (p := (· ≠ (0 : UInt8))) (l := l)) 0 hin
  simp at hall

theorem strcpy_of_same {dst src : Bytes} (h : cstr src = cstr dst) : strcpy dst src = dst := by
  have hsplit : dst = cstr dst ++ dst.dropWhile (· ≠ 0) := List.takeWhile_append_dropWhile.symm
  have hdrop : dst.drop (cstr dst).length = dst.dropWhile (· ≠ 0) := by
    calc dst.drop (cstr dst).length = (cstr dst ++ dst.dropWhile (· ≠ 0)).drop (cstr dst).length := by rw [← hsplit]
      _ = dst.dropWhile (· ≠ 0) := List.drop_left
  rw [strcpy, h, hdrop]
  exact hsplit.symm

/-- A copy over a name that is not longer leaves the zeros behind it. -/
theorem strcpy_of_le {dst src : Bytes} (htail : ZeroTail dst) (h : (cstr dst).length ≤ (cstr src).length) :
    ∃ k, strcpy dst src = cstr src ++ List.replicate k 0 := by
  obtain ⟨k, hk⟩ := htail
  refine ⟨k - ((cstr src).length - (cstr dst).length), ?_⟩
  rw [strcpy, hk, List.drop_append, List.drop_eq_nil_of_le h, List.nil_append, List.drop_replicate, ← hk]

theorem cstr_of_eq {l n : Bytes} {k : ℕ} (h : l = cstr n ++ List.replicate k 0) : cstr l = cstr n := by
  rw [h, cstr_append_replicate (zero_notMem_cstr n)]

theorem cstr_replicate (k : ℕ) : cstr (List.replicate k 0) = [] :=
  cstr_append_replicate (List.not_mem_nil) k

theorem cstr_nameField (h : Named name) : cstr (nameField name) = name :=
  cstr_append_replicate h.2.2 _

/-! ## The invariant -/

/-- An inode and its slot, when the inode last had `a`. -/
structure Ok (x : Slot) (i : Inode) (a : Attr) : Prop where
  tail : ZeroTail i.name
  dirty : i.dirty = true → i.upToDate = true ∧ 0 < i.count
  data : x.unused = false → a.data ≠ 0 ∧ a.data ≠ marioFreeEntry
  cached : x.unused = false → i.upToDate = true → cstr i.name = cstr x.name ∧ i.attr = a
  fits : x.unused = false → i.upToDate = false → (cstr i.name).length ≤ (cstr x.name).length
  stored : x.unused = false → i.dirty = false → x.attr = a

/-- Inodes in use have an entry, or their entry was deleted by the call that has them. -/
structure Inv (gone : Option ℕ) (s : State) : Prop where
  ok : ∀ p, Ok (s.slot p) (s.inode p) (s.last p)
  held : ∀ p, 0 < (s.inode p).count → Live s p ∨ gone = some p ∧ (s.inode p).count = 1 ∧ (s.inode p).dirty = false

theorem Inv.live (h : Inv none s) (hcount : 0 < (s.inode p).count) : Live s p :=
  (h.held p hcount).resolve_right fun hgone => by cases hgone.1

theorem not_unused_iff : x.unused = false ↔ x.attr.data ≠ 0 ∧ x.attr.data ≠ marioFreeEntry := by
  simp [Slot.unused]

/-! ## One position changes -/

/-- Nothing else changes than what belongs to a position. -/
structure Only (p : ℕ) (s s' : State) : Prop where
  slot : ∀ q, q ≠ p → s'.slot q = s.slot q
  inode : ∀ q, q ≠ p → s'.inode q = s.inode q
  last : ∀ q, q ≠ p → s'.last q = s.last q

theorem Only.refl (p : ℕ) (s : State) : Only p s s := ⟨fun _ _ => rfl, fun _ _ => rfl, fun _ _ => rfl⟩

theorem Only.trans {s₁ s₂ s₃ : State} (h : Only p s₁ s₂) (h' : Only p s₂ s₃) : Only p s₁ s₃ :=
  ⟨fun q hq => (h'.slot q hq).trans (h.slot q hq), fun q hq => (h'.inode q hq).trans (h.inode q hq),
    fun q hq => (h'.last q hq).trans (h.last q hq)⟩

@[simp] theorem slot_setSlot (s : State) (p : ℕ) (x : Slot) : (s.setSlot p x).slot p = x := by
  simp [State.setSlot]

@[simp] theorem inode_setSlot (s : State) (p q : ℕ) (x : Slot) : (s.setSlot p x).inode q = s.inode q := rfl

@[simp] theorem last_setSlot (s : State) (p : ℕ) (x : Slot) : (s.setSlot p x).last = s.last := rfl

@[simp] theorem slot_setInode (s : State) (p : ℕ) (i : Inode) : (s.setInode p i).slot = s.slot := rfl

@[simp] theorem inode_setInode (s : State) (p : ℕ) (i : Inode) : (s.setInode p i).inode p = i := by
  simp [State.setInode, State.inode]

@[simp] theorem last_setInode (s : State) (p : ℕ) (i : Inode) : (s.setInode p i).last = s.last := rfl

theorem only_setSlot (s : State) (p : ℕ) (x : Slot) : Only p s (s.setSlot p x) :=
  ⟨fun q hq => by simp [State.setSlot, hq], fun _ _ => rfl, fun _ _ => rfl⟩

theorem only_setInode (s : State) (p : ℕ) (i : Inode) : Only p s (s.setInode p i) :=
  ⟨fun _ _ => rfl, fun q hq => by simp [State.setInode, State.inode, hq], fun _ _ => rfl⟩

theorem only_readInode (s : State) (p : ℕ) : Only p s (readInode s p) := by
  unfold readInode marioReadInode
  split_ifs
  · exact Only.refl p s
  · exact only_setInode s p _

theorem only_writeInode (s : State) (p : ℕ) : Only p s (writeInode s p) := by
  unfold writeInode marioWriteInode
  split_ifs
  · exact (only_setSlot s p _).trans (only_setInode _ p _)
  · exact only_setInode s p _
  · exact Only.refl p s

theorem only_iget (s : State) (p : ℕ) : Only p s (iget s p) :=
  (only_setInode s p _).trans ((only_writeInode _ p).trans (only_readInode _ p))

theorem only_iput (s : State) (p : ℕ) : Only p s (iput s p) := by
  unfold iput
  dsimp only
  split_ifs
  · exact (only_setInode s p _).trans (only_writeInode _ p)
  · exact only_setInode s p _

theorem inode_clearInode (s : State) (p : ℕ) : (clearInode s p).inode p = blank := by
  simp [clearInode, State.inode]

theorem only_clearInode (s : State) (p : ℕ) : Only p s (clearInode s p) :=
  ⟨fun _ _ => rfl, fun q hq => by simp [clearInode, State.inode, hq], fun _ _ => rfl⟩

theorem Inv.only {gone' : Option ℕ} (h : Inv gone s) (honly : Only p s s')
    (hok : Ok (s'.slot p) (s'.inode p) (s'.last p))
    (hheld : 0 < (s'.inode p).count → Live s' p ∨ gone' = some p ∧ (s'.inode p).count = 1 ∧ (s'.inode p).dirty = false)
    (hgone : ∀ q, q ≠ p → gone = some q → gone' = some q) : Inv gone' s' := by
  constructor
  · intro q
    by_cases hq : q = p
    · subst hq
      exact hok
    · rw [honly.slot q hq, honly.inode q hq, honly.last q hq]
      exact h.ok q
  · intro q
    by_cases hq : q = p
    · subst hq
      exact hheld
    · rw [Live, honly.slot q hq, honly.inode q hq]
      intro hcount
      exact (h.held q hcount).imp id fun hgone' => ⟨hgone q hq hgone'.1, hgone'.2⟩

/-! ## Reading and writing -/

/-- Writing an inode that has an entry leaves the entry with what the inode has. The count can be another one
than before. -/
theorem writeInode_spec {n : ℕ} (h : Ok (s.slot p) { s.inode p with count := n } (s.last p)) (hlive : Live s p) :
    (writeInode s p).slot p = ⟨s.last p, (s.slot p).name⟩ ∧
      (writeInode s p).inode p = { s.inode p with dirty := false } ∧ (writeInode s p).last p = s.last p := by
  unfold writeInode
  split_ifs with hdirty
  · obtain ⟨hname, hattr⟩ := h.cached hlive hdirty.1
    have hsame : strsame (s.slot p).name (s.inode p).name = true := by
      rw [strsame, decide_eq_true_eq]
      exact hname.symm
    rw [marioWriteInode, if_pos hsame, strcpy_of_same hname, hattr]
    simp
  · have hclean : (s.inode p).dirty = false := by
      cases hd : (s.inode p).dirty with
      | false => rfl
      | true => exact absurd ⟨(h.dirty hd).1, hd⟩ hdirty
    refine ⟨?_, ?_, rfl⟩
    · rw [← h.stored hlive hclean]
    · rw [← hclean]

/-- Reading an inode that has an entry, and is not dirty, gives what the entry has. -/
theorem readInode_spec (h : Ok (s.slot p) (s.inode p) (s.last p)) (hlive : Live s p)
    (hclean : (s.inode p).dirty = false) :
    ∃ name, ZeroTail name ∧ cstr name = cstr (s.slot p).name ∧
      (readInode s p).inode p = ⟨(s.inode p).count, true, false, s.last p, name⟩ := by
  unfold readInode
  split_ifs with hread
  · obtain ⟨hname, hattr⟩ := h.cached hlive hread
    refine ⟨(s.inode p).name, h.tail, hname, ?_⟩
    rw [← hattr, ← hread, ← hclean]
  · rw [Bool.not_eq_true] at hread
    obtain ⟨k, hk⟩ := strcpy_of_le h.tail (h.fits hlive hread)
    have hcstr := cstr_of_eq hk
    refine ⟨strcpy (s.inode p).name (s.slot p).name, ⟨k, by rw [hcstr]; exact hk⟩, hcstr, ?_⟩
    rw [marioReadInode, inode_setInode, h.stored hlive hclean]

theorem slot_readInode (s : State) (p : ℕ) : (readInode s p).slot = s.slot := by
  unfold readInode marioReadInode
  split_ifs <;> rfl

theorem last_readInode (s : State) (p : ℕ) : (readInode s p).last = s.last := by
  unfold readInode marioReadInode
  split_ifs <;> rfl

theorem ok_read {count : ℕ} (hdata : a.data ≠ 0 ∧ a.data ≠ marioFreeEntry) {n m : Bytes} (htail : ZeroTail n)
    (hname : cstr n = cstr m) : Ok ⟨a, m⟩ ⟨count, true, false, a, n⟩ a :=
  ⟨htail, by simp, fun _ => hdata, fun _ _ => ⟨hname, rfl⟩, by simp, fun _ _ => rfl⟩

theorem iget_spec (h : Ok (s.slot p) (s.inode p) (s.last p)) (hlive : Live s p) :
    ∃ name, ZeroTail name ∧ cstr name = cstr (s.slot p).name ∧
      (iget s p).inode p = ⟨(s.inode p).count + 1, true, false, s.last p, name⟩ ∧
      (iget s p).slot p = ⟨s.last p, (s.slot p).name⟩ ∧ (iget s p).last p = s.last p := by
  have hdata := h.data hlive
  generalize hs₁ : s.setInode p { s.inode p with count := (s.inode p).count + 1 } = s₁
  have hslot₁ : s₁.slot p = s.slot p := by rw [← hs₁, slot_setInode]
  have hinode₁ : s₁.inode p = { s.inode p with count := (s.inode p).count + 1 } := by rw [← hs₁, inode_setInode]
  have hlast₁ : s₁.last p = s.last p := by rw [← hs₁, last_setInode]
  have hok₁ : Ok (s₁.slot p) (s₁.inode p) (s₁.last p) := by
    rw [hslot₁, hinode₁, hlast₁]
    exact ⟨h.tail, fun hd => ⟨(h.dirty hd).1, Nat.succ_pos _⟩, h.data, h.cached, h.fits, h.stored⟩
  have hlive₁ : Live s₁ p := by rwa [Live, hslot₁]
  obtain ⟨hslot₂, hinode₂, hlast₂⟩ := @writeInode_spec s₁ p (s₁.inode p).count hok₁ hlive₁
  have hok₂ : Ok ((writeInode s₁ p).slot p) ((writeInode s₁ p).inode p) ((writeInode s₁ p).last p) := by
    rw [hslot₂, hinode₂, hlast₂]
    refine ⟨hok₁.tail, by simp, fun _ => hok₁.data hlive₁, fun _ => hok₁.cached hlive₁, fun _ => hok₁.fits hlive₁,
      fun _ _ => rfl⟩
  have hlive₂ : Live (writeInode s₁ p) p := by
    rw [Live, hslot₂, hlast₁]
    exact not_unused_iff.mpr hdata
  obtain ⟨name, htail, hname, hread⟩ := readInode_spec hok₂ hlive₂ (by rw [hinode₂])
  rw [hslot₂, hslot₁] at hname
  refine ⟨name, htail, hname, ?_, ?_, ?_⟩
  · rw [iget, hs₁, hread, hinode₂, hinode₁, hlast₂, hlast₁]
  · rw [iget, hs₁, slot_readInode, hslot₂, hlast₁, hslot₁]
  · rw [iget, hs₁, last_readInode, hlast₂, hlast₁]

theorem Inv.iget (h : Inv gone s) (hlive : Live s p) : Inv gone (iget s p) ∧ Live (WriteBack.iget s p) p := by
  obtain ⟨name, htail, hname, hinode, hslot, hlast⟩ := iget_spec (h.ok p) hlive
  have hdata := (h.ok p).data hlive
  have hlive' : Live (WriteBack.iget s p) p := by
    rw [Live, hslot]
    exact not_unused_iff.mpr hdata
  refine ⟨h.only (only_iget s p) ?_ (fun _ => .inl hlive') fun _ _ hg => hg, hlive'⟩
  rw [hinode, hslot, hlast]
  exact ok_read hdata htail hname

theorem count_writeInode (s : State) (p : ℕ) : ((writeInode s p).inode p).count = (s.inode p).count := by
  unfold writeInode
  split_ifs <;> simp

theorem Inv.iput {gone' : Option ℕ} (h : Inv gone s)
    (hheld : Live s p ∨ (s.inode p).count = 1 ∧ (s.inode p).dirty = false)
    (hgone : ∀ q, q ≠ p → gone = some q → gone' = some q) : Inv gone' (iput s p) := by
  have hok := h.ok p
  generalize hs₁ : s.setInode p { s.inode p with count := (s.inode p).count - 1 } = s₁
  have honly : Only p s s₁ := hs₁ ▸ only_setInode s p _
  have hslot₁ : s₁.slot p = s.slot p := by rw [← hs₁, slot_setInode]
  have hinode₁ : s₁.inode p = { s.inode p with count := (s.inode p).count - 1 } := by rw [← hs₁, inode_setInode]
  have hlast₁ : s₁.last p = s.last p := by rw [← hs₁, last_setInode]
  rw [WriteBack.iput, hs₁]
  rw [hinode₁]
  change Inv gone' (if (s.inode p).count - 1 = 0 then writeInode s₁ p else s₁)
  split_ifs with hzero
  · -- The last reference: the inode is written.
    refine h.only (honly.trans (only_writeInode s₁ p)) ?_ (fun hpos => ?_) hgone
    · obtain hlive | ⟨-, hclean⟩ := hheld
      · have hlive₁ : Live s₁ p := by rwa [Live, hslot₁]
        have hok₁ : Ok (s₁.slot p) { s₁.inode p with count := (s.inode p).count } (s₁.last p) := by
          rw [hslot₁, hinode₁, hlast₁]
          exact hok
        obtain ⟨hslot₂, hinode₂, hlast₂⟩ := writeInode_spec hok₁ hlive₁
        rw [hslot₂, hinode₂, hlast₂]
        exact ⟨hok₁.tail, by simp, fun _ => hok₁.data hlive₁, fun _ => hok₁.cached hlive₁,
          fun _ => hok₁.fits hlive₁, fun _ _ => rfl⟩
      · have hsame : writeInode s₁ p = s₁ := by
          rw [writeInode, if_neg]
          rw [hinode₁]
          simp [hclean]
        rw [hsame, hslot₁, hinode₁, hlast₁]
        exact ⟨hok.tail, by simp [hclean], hok.data, hok.cached, hok.fits, hok.stored⟩
    · rw [count_writeInode, hinode₁] at hpos
      exact absurd hpos (by simp only [hzero]; omega)
  · refine h.only honly ?_ (fun _ => .inl ?_) hgone
    · rw [hslot₁, hinode₁, hlast₁]
      exact ⟨hok.tail, fun hd => ⟨(hok.dirty hd).1, Nat.pos_of_ne_zero hzero⟩, hok.data, hok.cached, hok.fits,
        hok.stored⟩
    · rw [Live, hslot₁]
      exact hheld.resolve_right (by omega)

theorem live_iput (h : Inv gone s) (hp : Live s p) (hq : Live s q) : Live (iput s p) q := by
  by_cases hqp : q = p
  · subst hqp
    have hok := h.ok q
    unfold WriteBack.iput
    dsimp only
    split_ifs
    · have hok' : Ok ((s.setInode q { s.inode q with count := (s.inode q).count - 1 }).slot q)
          { (s.setInode q { s.inode q with count := (s.inode q).count - 1 }).inode q with count := (s.inode q).count }
          ((s.setInode q { s.inode q with count := (s.inode q).count - 1 }).last q) := by
        rw [slot_setInode, inode_setInode, last_setInode]
        exact hok
      rw [Live, (writeInode_spec hok' hp).1]
      exact not_unused_iff.mpr (hok.data hp)
    · exact hp
  · rw [Live, (only_iput s p).slot q hqp]
    exact hq

theorem last_writeInode (s : State) (p : ℕ) : (writeInode s p).last = s.last := by
  unfold writeInode marioWriteInode
  split_ifs <;> rfl

theorem last_iput (s : State) (p : ℕ) : (iput s p).last = s.last := by
  unfold iput
  dsimp only
  split_ifs
  · exact last_writeInode _ p
  · rfl

theorem count_iput (s : State) (p : ℕ) : ((iput s p).inode p).count = (s.inode p).count - 1 := by
  unfold iput
  dsimp only
  split_ifs
  · rw [count_writeInode, inode_setInode]
  · rw [inode_setInode]

theorem Inv.clearInode (h : Inv gone s) (hcount : (s.inode p).count = 0) : Inv gone (clearInode s p) := by
  have hok := h.ok p
  have hclean : (s.inode p).dirty = false := by
    cases hd : (s.inode p).dirty with
    | false => rfl
    | true => exact absurd (hok.dirty hd).2 (by omega)
  refine h.only (only_clearInode s p) ?_ (fun hpos => ?_) fun _ _ hg => hg
  · rw [inode_clearInode]
    exact ⟨⟨marioNameLen, rfl⟩, by simp [blank], hok.data, by simp [blank],
      fun _ _ => by simp [blank, cstr_replicate], fun hlive _ => hok.stored hlive hclean⟩
  · rw [inode_clearInode] at hpos
    exact absurd hpos (Nat.lt_irrefl 0)

theorem Inv.changeInode (h : Inv gone s) (hheld : Live s p) (hcount : 0 < (s.inode p).count)
    (hread : (s.inode p).upToDate = true) (hdata : a.data ≠ 0 ∧ a.data ≠ marioFreeEntry) :
    Inv gone (changeInode s p a) := by
  have hok := h.ok p
  have honly : Only p s (WriteBack.changeInode s p a) := by
    refine (only_setInode s p _).trans ⟨fun _ _ => rfl, fun _ _ => rfl, fun q hq => ?_⟩
    simp [WriteBack.changeInode, hq]
  have hinode : (WriteBack.changeInode s p a).inode p = { s.inode p with attr := a, dirty := true } :=
    inode_setInode s p _
  have hlast : (WriteBack.changeInode s p a).last p = a := by simp [WriteBack.changeInode]
  refine h.only honly ?_ (fun _ => .inl hheld) fun _ _ hg => hg
  rw [hinode, hlast]
  exact ⟨hok.tail, fun _ => ⟨hread, hcount⟩, fun _ => hdata, fun hlive hr => ⟨(hok.cached hlive hr).1, rfl⟩,
    by simp [hread], by simp⟩

/-! ## Entries -/

/-- The entry of an inode that one call has and that is not dirty is deleted. -/
theorem Inv.delEntry (h : Inv none s) (hcount : (s.inode p).count = 1) (hclean : (s.inode p).dirty = false) :
    Inv (some p) (delEntry s p) := by
  have hok := h.ok p
  have hunused : ((WriteBack.delEntry s p).slot p).unused = true := by
    simp [WriteBack.delEntry, Slot.unused]
  refine h.only (only_setSlot s p _) ?_ (fun _ => .inr ⟨rfl, hcount, hclean⟩) (by simp)
  refine ⟨hok.tail, hok.dirty, ?_, ?_, ?_, ?_⟩
  all_goals
    intro hlive
    rw [hunused] at hlive
    cases hlive

theorem count_of_not_busy (h : inodeIsBusy s p = false) : (s.inode p).count = 0 := by
  simpa [inodeIsBusy] using h

theorem only_putEntry (s : State) (p : ℕ) (e : Slot) : Only p s (putEntry s p e) :=
  ⟨fun q hq => (only_setSlot s p e).slot q hq,
    fun q hq => by simp [putEntry, inodeInvalidate, State.inode, State.setSlot, hq],
    fun q hq => by simp [putEntry, inodeInvalidate, hq]⟩

theorem Inv.putEntry {e : Slot} (h : Inv gone s) (hbusy : inodeIsBusy s p = false)
    (hdata : e.attr.data ≠ 0 ∧ e.attr.data ≠ marioFreeEntry) (hfits : Fits s p (cstr e.name)) :
    Inv gone (putEntry s p e) ∧ Live (WriteBack.putEntry s p e) p := by
  have hok := h.ok p
  have hcount := count_of_not_busy hbusy
  have hslot : (WriteBack.putEntry s p e).slot p = e := slot_setSlot s p e
  have hlast : (WriteBack.putEntry s p e).last p = e.attr := by simp [WriteBack.putEntry, inodeInvalidate]
  have hinode : (WriteBack.putEntry s p e).inode p = { s.inode p with upToDate := false, dirty := false } := by
    cases hc : s.cache p <;> simp [WriteBack.putEntry, inodeInvalidate, State.inode, State.setSlot, hc, blank]
  have honly := only_putEntry s p e
  have hlength : (cstr (s.inode p).name).length ≤ (cstr e.name).length := by
    cases hc : s.cache p with
    | none => simp [State.inode, hc, blank, cstr_replicate]
    | some i => simpa [State.inode, hc] using hfits i hc
  have hlive : Live (WriteBack.putEntry s p e) p := by
    rw [Live, hslot]
    exact not_unused_iff.mpr hdata
  refine ⟨h.only honly ?_ (fun _ => .inl hlive) fun _ _ hg => hg, hlive⟩
  rw [hslot, hinode, hlast]
  exact ⟨hok.tail, by simp, fun _ => hdata, by simp, fun _ _ => hlength, fun _ _ => rfl⟩

/-- A slot whose inode nobody has becomes a slot without an entry. -/
theorem Inv.setUnused (h : Inv gone s) (hbusy : inodeIsBusy s p = false) (hx : x.unused = true) :
    Inv gone (s.setSlot p x) := by
  have hok := h.ok p
  have hcount := count_of_not_busy hbusy
  refine h.only (only_setSlot s p x) ?_ (fun hpos => ?_) fun _ _ hg => hg
  · rw [slot_setSlot]
    refine ⟨hok.tail, hok.dirty, ?_, ?_, ?_, ?_⟩
    all_goals
      intro hlive
      rw [hx] at hlive
      cases hlive
  · rw [inode_setSlot] at hpos
    omega

theorem Inv.setSlots {l : Block} (h : Inv gone s) (hl : ∀ x ∈ l, x.2.unused = true ∧ inodeIsBusy s x.1 = false) :
    Inv gone (l.foldl (fun s x => s.setSlot x.1 x.2) s) ∧
      ∀ q, (l.foldl (fun s x => s.setSlot x.1 x.2) s).inode q = s.inode q := by
  induction l generalizing s with
  | nil => exact ⟨h, fun _ => rfl⟩
  | cons x l ih =>
    obtain ⟨hx, hbusy⟩ := hl x List.mem_cons_self
    exact ih (h.setUnused hbusy hx) fun y hy => hl y (List.mem_cons_of_mem x hy)

theorem Inv.grow {block : Block} (h : Inv gone s) (hclean : Clean s block) :
    Inv gone (grow s d block) ∧ ∀ q, (WriteBack.grow s d block).inode q = s.inode q := by
  have hrest : ∀ x ∈ block.drop 2, x.2.unused = true ∧ inodeIsBusy s x.1 = false := fun x hx =>
    ⟨hclean.1 x hx, hclean.2 x (List.mem_of_mem_drop hx)⟩
  obtain ⟨hinv, hinode⟩ := h.setSlots hrest
  match block, hclean, hinv, hinode with
  | [], _, hinv, hinode => exact ⟨⟨hinv.ok, hinv.held⟩, hinode⟩
  | [_], _, hinv, hinode => exact ⟨⟨hinv.ok, hinv.held⟩, hinode⟩
  | _ :: y :: l, hclean, hinv, hinode =>
    have hbusy := hclean.2 y (by simp)
    rw [inodeIsBusy, ← hinode] at hbusy
    have hzero := hinv.setUnused hbusy (x := Slot.zero) rfl
    exact ⟨⟨hzero.ok, hzero.held⟩, hinode⟩

/-- A place for an entry belongs to an inode that nobody has. -/
theorem Inv.entryPlace {more : Option Block} (h : Inv gone s) (hclean : ∀ block ∈ more, Clean s block)
    (hplace : entryPlace s d more = some (s', p)) :
    Inv gone s' ∧ inodeIsBusy s' p = false ∧ ∀ q, s'.inode q = s.inode q := by
  unfold WriteBack.entryPlace at hplace
  split at hplace
  · rename_i p' hfind
    cases hplace
    obtain ⟨blocks, -, hp⟩ := Option.bind_eq_some_iff.mp hfind
    have hfound := List.find?_some hp
    simp only [Bool.not_eq_true, Bool.decide_and, Bool.and_eq_true, decide_eq_true_eq] at hfound
    exact ⟨h, hfound.2, fun _ => rfl⟩
  · rename_i y block _
    cases hplace
    have hblock := hclean _ rfl
    obtain ⟨hinv, hinode⟩ := h.grow hblock
    refine ⟨hinv, ?_, hinode⟩
    rw [inodeIsBusy, hinode]
    exact hblock.2 y List.mem_cons_self
  · cases hplace

theorem Inv.addEntry {e : Slot} {more : Option Block} (h : Inv gone s) (hfit : FitPlace s d (cstr e.name) more)
    (hdata : e.attr.data ≠ 0 ∧ e.attr.data ≠ marioFreeEntry) (hadd : addEntry s d e more = some (s', p)) :
    Inv gone s' ∧ Live s' p ∧ ∀ q, 0 < (s.inode q).count → s'.inode q = s.inode q := by
  unfold WriteBack.addEntry at hadd
  obtain ⟨⟨s₁, p'⟩, hplace, hput⟩ := Option.map_eq_some_iff.mp hadd
  cases hput
  obtain ⟨hinv, hbusy, hinode⟩ := h.entryPlace hfit.1 hplace
  obtain ⟨hinv', hlive⟩ := hinv.putEntry hbusy hdata (hfit.2 _ hplace)
  refine ⟨hinv', hlive, fun q hq => ?_⟩
  have hcount := count_of_not_busy hbusy
  rw [← hinode q] at hq ⊢
  refine (only_putEntry s₁ p' e).inode q ?_
  rintro rfl
  omega

/-! ## Calls -/

theorem Inv.create {more : Option Block} (h : Inv none s) (hname : Named name) (hfit : FitPlace s d name more) :
    Inv none (marioCreate s d name more) := by
  unfold marioCreate
  split
  · rename_i s₁ p hadd
    have hfit' : FitPlace s d (cstr (newEntry name).name) more := by
      rw [newEntry, cstr_nameField hname]
      exact hfit
    obtain ⟨hinv, hlive, -⟩ := h.addEntry hfit' (by simp [newEntry, marioZeroEntry, marioFreeEntry]) hadd
    exact (hinv.iget hlive).1
  · exact h

theorem findEntry_live (h : findEntry s d name = some p) : Live s p := by
  obtain ⟨blocks, -, hfind⟩ := Option.bind_eq_some_iff.mp h
  obtain ⟨ps, -, hp⟩ := List.exists_of_findSome?_eq_some hfind
  have hused := List.find?_some hp
  have hin := List.all_eq_true.mp List.all_takeWhile p (List.mem_of_find?_eq_some hp)
  simp only [Bool.decide_and, Bool.and_eq_true, decide_eq_true_eq] at hused hin
  exact not_unused_iff.mpr ⟨hin, hused.1⟩

theorem Inv.iget_single (h : Inv gone s) (hlive : Live s p) (hcount : ¬ 1 < ((WriteBack.iget s p).inode p).count) :
    ((WriteBack.iget s p).inode p).count = 1 ∧ ((WriteBack.iget s p).inode p).dirty = false := by
  obtain ⟨name, -, -, hinode, -, -⟩ := iget_spec (h.ok p) hlive
  rw [hinode] at hcount ⊢
  refine ⟨?_, rfl⟩
  dsimp only at hcount ⊢
  omega

theorem Inv.unlink (h : Inv none s) (hlive : Live s p) : Inv none (marioUnlink s p) := by
  obtain ⟨hinv, -⟩ := h.iget hlive
  unfold marioUnlink
  dsimp only
  split_ifs with hdir hmany
  · exact hinv
  · exact hinv
  · obtain ⟨hone, hclean⟩ := h.iget_single hlive hmany
    refine (hinv.delEntry hone hclean).iput (.inr ⟨hone, hclean⟩) fun q hq hgone => ?_
    exact absurd (Option.some.inj hgone).symm hq

/-- What `renameFrom` leaves: the call is over, or the old entry is deleted and its inode is kept. -/
def Renamed (o : ℕ) (r : State × Option Attr) : Prop :=
  match r.2 with
  | none => Inv none r.1
  | some a => Inv (some o) r.1 ∧ (r.1.inode o).count = 1 ∧ (r.1.inode o).dirty = false ∧
      a.data ≠ 0 ∧ a.data ≠ marioFreeEntry

theorem Inv.delOld {o : ℕ} (h : Inv none s) (hlive : Live s o) (hpos : 0 < (s.inode o).count)
    (hread : (s.inode o).upToDate = true) (hclean : (s.inode o).dirty = false) : Renamed o (delOld s o) := by
  unfold WriteBack.delOld
  split_ifs with hmany
  · exact h.iput (.inl hlive) fun _ _ hgone => hgone
  · have hone : (s.inode o).count = 1 := by omega
    refine ⟨h.delEntry hone hclean, hone, hclean, ?_⟩
    rw [((h.ok o).cached hlive hread).2]
    exact (h.ok o).data hlive

theorem Inv.delTarget {t : ℕ} (h : Inv none s) (hcount : (s.inode t).count = 1) (hclean : (s.inode t).dirty = false) :
    Inv (some t) (delTarget s t) := by
  have hinv := h.delEntry hcount hclean
  unfold WriteBack.delTarget
  dsimp only
  split_ifs
  · exact ⟨hinv.ok, hinv.held⟩
  · exact hinv

theorem only_delTarget (s : State) (t : ℕ) : Only t s (delTarget s t) := by
  have honly : Only t s (delEntry s t) := only_setSlot s t _
  unfold delTarget
  dsimp only
  split_ifs
  · exact ⟨honly.slot, honly.inode, honly.last⟩
  · exact honly

theorem inode_delTarget (s : State) (t : ℕ) : (delTarget s t).inode t = s.inode t := by
  unfold delTarget
  dsimp only
  split_ifs <;> rfl

theorem Inv.renameFrom {o d' : ℕ} {name' : Bytes} (h : Inv none s) (hlive : Live s o) :
    Renamed o (renameFrom s o d' name') := by
  obtain ⟨hinv, hlive₁⟩ := h.iget hlive
  obtain ⟨name, -, -, hinode, -, -⟩ := iget_spec (h.ok o) hlive
  have hpos : 0 < ((WriteBack.iget s o).inode o).count := by
    rw [hinode]
    exact Nat.succ_pos _
  have hread : ((WriteBack.iget s o).inode o).upToDate = true := by rw [hinode]
  have hclean : ((WriteBack.iget s o).inode o).dirty = false := by rw [hinode]
  unfold WriteBack.renameFrom
  dsimp only
  generalize WriteBack.iget s o = s₁ at *
  split
  · exact hinv.delOld hlive₁ hpos hread hclean
  · rename_i t hfind
    have hlivet := findEntry_live hfind
    obtain ⟨hinv₂, hlivet₂⟩ := hinv.iget hlivet
    have hlive₂ : Live (WriteBack.iget s₁ t) o := by
      by_cases hot : o = t
      · exact hot ▸ hlivet₂
      · rw [Live, (only_iget s₁ t).slot o hot]
        exact hlive₁
    -- The call gives both inodes back.
    have hback : Inv none (WriteBack.iput (WriteBack.iput (WriteBack.iget s₁ t) t) o) :=
      (hinv₂.iput (.inl hlivet₂) fun _ _ hgone => hgone).iput (.inl (live_iput hinv₂ hlivet₂ hlive₂))
        fun _ _ hgone => hgone
    split_ifs with hrefused hmany
    · exact hback
    · exact hback
    · simp only [not_or] at hrefused
      have hot : o ≠ t := fun hot => hrefused.1 hot.symm
      obtain ⟨hone, hcleant⟩ := hinv.iget_single hlivet hmany
      have hdel := hinv₂.delTarget hone hcleant
      have hinv₃ : Inv none (WriteBack.iput (WriteBack.delTarget (WriteBack.iget s₁ t) t) t) := by
        refine hdel.iput (.inr ?_) fun q hq hgone => absurd (Option.some.inj hgone).symm hq
        rw [inode_delTarget]
        exact ⟨hone, hcleant⟩
      have honly : Only t s₁ (WriteBack.iput (WriteBack.delTarget (WriteBack.iget s₁ t) t) t) :=
        (only_iget s₁ t).trans ((only_delTarget _ t).trans (only_iput _ t))
      have hsame := honly.inode o hot
      refine hinv₃.delOld ?_ (hsame ▸ hpos) (hsame ▸ hread) (hsame ▸ hclean)
      rw [Live, honly.slot o hot]
      exact hlive₁

theorem Inv.rename {o d' : ℕ} {name' : Bytes} {more : Option Block} (h : Inv none s) (hlive : Live s o)
    (hname : Named name')
    (hfit : (WriteBack.renameFrom s o d' name').2.isSome = true →
      FitPlace (WriteBack.renameFrom s o d' name').1 d' name' more) : Inv none (doMarioRename s o d' name' more) := by
  have hfrom : Renamed o (WriteBack.renameFrom s o d' name') := h.renameFrom hlive
  unfold doMarioRename
  split
  · rename_i s₁ hr
    rw [hr] at hfrom
    exact hfrom
  · rename_i s₁ a hr
    rw [hr] at hfrom hfit
    obtain ⟨hinv, hone, hclean, hdata⟩ := hfrom
    have hput : ∀ s₂, Inv (some o) s₂ → s₂.inode o = s₁.inode o → Inv none (WriteBack.iput s₂ o) := by
      intro s₂ hinv₂ hsame
      refine hinv₂.iput (.inr ?_) fun q hq hgone => absurd (Option.some.inj hgone).symm hq
      rw [hsame]
      exact ⟨hone, hclean⟩
    split
    · rename_i s₂ p hadd
      have hfit' : FitPlace s₁ d' (cstr (Slot.mk a (nameField name')).name) more := by
        rw [cstr_nameField hname]
        exact hfit rfl
      obtain ⟨hinv₂, -, hsame⟩ := hinv.addEntry hfit' hdata hadd
      exact hput s₂ hinv₂ (hsame o (by omega))
    · exact hput s₁ hinv rfl

theorem Inv.change (h : Inv none s) (hheld : WriteBack.held s p = true)
    (hdata : ((s.inode p).attr.data ≠ 0 ∧ (s.inode p).attr.data ≠ marioFreeEntry) →
      a.data ≠ 0 ∧ a.data ≠ marioFreeEntry) : Inv none (WriteBack.changeInode s p a) := by
  simp only [WriteBack.held, Bool.decide_and, Bool.decide_eq_true, Bool.and_eq_true, decide_eq_true_eq] at hheld
  obtain ⟨hcount, hread, -⟩ := hheld
  have hlive := h.live hcount
  refine h.changeInode hlive hcount hread (hdata ?_)
  rw [((h.ok p).cached hlive hread).2]
  exact (h.ok p).data hlive

/-! ## Runs -/

theorem Inv.step {l : Label} (h : Inv none s) (hgood : Good s l) (hstep : Step s l s') : Inv none s' := by
  unfold Step at hstep
  cases l with
  | create d name more =>
    simp only [exec, Option.ite_none_right_eq_some, Option.some.injEq] at hstep
    obtain ⟨⟨hname, -, -⟩, rfl⟩ := hstep
    exact h.create hname hgood
  | write p block grown pos =>
    simp only [exec, Option.ite_none_right_eq_some, Option.some.injEq] at hstep
    obtain ⟨⟨hheld, hblock⟩, rfl⟩ := hstep
    refine h.change hheld fun hdata => ?_
    unfold marioFileWrite
    dsimp only
    split_ifs
    · exact ⟨Nat.ne_of_gt hblock.1, Nat.ne_of_lt hblock.2⟩
    · exact hdata
  | truncate p head size =>
    simp only [exec, Option.ite_none_right_eq_some, Option.some.injEq] at hstep
    obtain ⟨⟨hheld, hblock⟩, rfl⟩ := hstep
    refine h.change hheld fun hdata => ?_
    unfold marioFileTruncate
    dsimp only
    split_ifs
    · exact ⟨Nat.ne_of_gt hblock.1, Nat.ne_of_lt hblock.2⟩
    · exact hdata
    · exact ⟨by decide, by decide⟩
    · exact hdata
    · exact hdata
  | unlink d name =>
    simp only [exec, Option.ite_none_right_eq_some] at hstep
    obtain ⟨p, hfind, rfl⟩ := Option.map_eq_some_iff.mp hstep.2
    exact h.unlink (findEntry_live hfind)
  | rename d name d' name' more =>
    simp only [exec, Option.ite_none_right_eq_some] at hstep
    obtain ⟨⟨-, hname', -⟩, hmap⟩ := hstep
    obtain ⟨o, hfind, rfl⟩ := Option.map_eq_some_iff.mp hmap
    exact h.rename (findEntry_live hfind) hname' (hgood o hfind)
  | lookup d name =>
    simp only [exec, Option.ite_none_right_eq_some] at hstep
    obtain ⟨p, hfind, rfl⟩ := Option.map_eq_some_iff.mp hstep.2
    exact (h.iget (findEntry_live hfind)).1
  | iput p =>
    simp only [exec, Option.ite_none_right_eq_some, Option.some.injEq] at hstep
    obtain ⟨hcount, rfl⟩ := hstep
    exact h.iput (.inl (h.live hcount)) fun _ _ hgone => hgone
  | clear p =>
    simp only [exec, Option.ite_none_right_eq_some, Option.some.injEq] at hstep
    obtain ⟨hcount, rfl⟩ := hstep
    exact h.clearInode hcount

theorem Initial.inv (h : Initial s) : Inv none s := by
  have hinode : ∀ p, s.inode p = blank := fun p => by rw [State.inode, h.cache]; rfl
  refine ⟨fun p => ?_, fun p hpos => ?_⟩
  · rw [hinode, h.last]
    exact ⟨⟨marioNameLen, rfl⟩, by simp [blank], not_unused_iff.mp, by simp [blank],
      fun _ _ => by simp [blank, cstr_replicate], fun _ _ => rfl⟩
  · rw [hinode] at hpos
    exact absurd hpos (Nat.lt_irrefl 0)

theorem Inv.lossless (h : Inv none s) : Lossless s := by
  have hcache : ∀ p i, s.cache p = some i → s.inode p = i := fun p i hi => by rw [State.inode, hi]; rfl
  constructor
  · intro p i hlive hi hcount hread _
    have hinv : Inv none (WriteBack.iput s p) := h.iput (.inl hlive) fun _ _ hgone => hgone
    have hzero : ((WriteBack.iput s p).inode p).count = 0 := by
      rw [count_iput, hcache p i hi, hcount]
    have hlive' : Live (WriteBack.clearInode (WriteBack.iput s p) p) p := live_iput h hlive hlive
    obtain ⟨name, -, -, hinode, -, -⟩ := iget_spec ((hinv.clearInode hzero).ok p) hlive'
    rw [hinode, ← hcache p i hi]
    change (WriteBack.iput s p).last p = (s.inode p).attr
    rw [last_iput]
    exact ((h.ok p).cached hlive (hcache p i hi ▸ hread)).2.symm
  · intro p i hi hcount
    cases hd : i.dirty with
    | false => rfl
    | true =>
      rw [← hcache p i hi] at hcount hd
      exact absurd ((h.ok p).dirty hd).2 (by omega)
  · exact fun p hlive hclean => (h.ok p).stored hlive hclean
  · exact fun p hlive hread => ((h.ok p).cached hlive hread).2

/-- In every run in which no longer name is in memory for the place of a new entry, what was changed is
written and is read again. -/
theorem write_back_lossless {s₀ : State} {labels : List Label} (hinit : Initial s₀)
    (hrun : Run (Guarded Good Step) s₀ labels s) : Lossless s :=
  (hrun.invariant (P := Inv none) hinit.inv fun h hstep => h.step hstep.1 hstep.2).lossless

/-- A volume with an empty directory. -/
def volume : State where
  nrBlocks := 8
  slot _ := Slot.zero
  dir d := if d = 1 then some [(List.range 7).map fun i => 620 + 54 * i] else none
  cache _ := none
  last _ := Slot.zero.attr

theorem volume_initial : Initial volume := ⟨fun _ => rfl, fun _ => rfl⟩

def ab : Bytes := [97, 98]

def hello : Bytes := [104, 101, 108, 108, 111]

/-- A slot is used for a longer name, and the file is written, read again and renamed. -/
def reuse : List Label :=
  [.create 1 ab none, .write 620 3 0 5, .iput 620, .unlink 1 ab, .create 1 hello none, .write 620 4 2 1300,
    .truncate 620 5 600, .iput 620, .clear 620, .lookup 1 hello, .iput 620, .rename 1 hello 1 ab none, .lookup 1 ab]

theorem reuse_replays : (replay Good exec volume reuse).isSome := by decide +kernel

theorem write_back_lossless_reuse : Lossless ((replay Good exec volume reuse).get reuse_replays) :=
  write_back_lossless volume_initial (run_of_replay (Option.some_get reuse_replays).symm)

/-- A slot is used for a shorter name while the inode of the longer one is in memory. -/
def shorter : List Label :=
  [.create 1 hello none, .iput 620, .unlink 1 hello, .create 1 ab none, .write 620 7 0 5, .iput 620]

theorem shorter_replays : (replay (fun _ _ => True) exec volume shorter).isSome := by decide +kernel

/-- The file was written and has size zero on the disk. -/
theorem write_back_loses :
    ∃ labels s, Initial volume ∧ Run Step volume labels s ∧ Live s 620 ∧ (s.inode 620).dirty = false ∧
      (s.slot 620).attr.size = 0 ∧ (s.last 620).size = 5 ∧ ¬ Lossless s := by
  have hrun := run_of_replay (Option.some_get shorter_replays).symm
  generalize hs : (replay (fun _ _ => True) exec volume shorter).get shorter_replays = s at hrun
  have hlive : Live s 620 := by rw [← hs]; decide +kernel
  have hclean : (s.inode 620).dirty = false := by rw [← hs]; decide +kernel
  have hstored : (s.slot 620).attr.size = 0 := by rw [← hs]; decide +kernel
  have hlast : (s.last 620).size = 5 := by rw [← hs]; decide +kernel
  refine ⟨shorter, s, volume_initial, hrun.mono fun _ _ _ hstep => hstep.2, hlive, hclean, hstored, hlast, fun h => ?_⟩
  rw [h.stored 620 hlive hclean, hlast] at hstored
  exact absurd hstored (by decide)

end Mario.Fs.Mariofs.WriteBack
