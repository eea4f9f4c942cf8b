import Mario.Fs.Ext2.Truncate

/-!
# When a truncation of ext2 gives back what it should

The truncation against the tree of pointers of the inode: what one round of a loop does, what the loops do below an
indirect block by induction on the level, and what they do at the pointers of the inode.
-/

namespace Mario.Fs.Ext2

open Mario.Lib Mario.Lib.PointerTree Function

/-! ## Giving a block back -/

section Free

variable {g : Geometry} {s t : State} {b : ℕ} {w : Write} {buf : Buffer} {r : Answers}

theorem writeBlock_ok {m : Layout} (hw : writeBlock m s b buf w = (.ok (), t)) :
    t = { s with disk := update s.disk b buf } := by
  unfold writeBlock at hw
  split_ifs at hw with hb
  · cases hw
  · cases w with
    | done =>
      cases hw
      rfl
    | failed sectors => cases hw

theorem writeGroupDesc_ok {m : Layout} {group : ℕ} (hw : writeGroupDesc m s group r = (.ok (), t)) :
    ∃ buf, t = { s with disk := update s.disk (m.descBlock group) buf } := by
  unfold writeGroupDesc at hw
  split_ifs at hw
  · cases hw
  · cases hw
  · rcases readBlock_cases m s (m.descBlock group) r.descRead with ⟨e, he⟩ | hok
    · rw [he] at hw
      cases hw
    · rw [hok] at hw
      exact ⟨_, writeBlock_ok hw⟩

/-- A block that is given back was marked, and its mark is cleared; nothing changes but metadata. -/
theorem ext2FreeBlock_ok (hfree : ext2FreeBlock g.toLayout b r s = (.ok (), t)) :
    g.firstDataBlock ≤ b ∧ (b - g.firstDataBlock) / g.blocksPerGroup < g.nrGroups ∧
      blockUsed g.toLayout s b = true ∧ ∃ buf, t.disk = update
          (update s.disk (g.bitmapBlock .block ((b - g.firstDataBlock) / g.blocksPerGroup))
            (Bitmap.put (s.disk (g.bitmapBlock .block ((b - g.firstDataBlock) / g.blocksPerGroup)))
              ((b - g.firstDataBlock) % g.blocksPerGroup) false))
          (g.descBlock ((b - g.firstDataBlock) / g.blocksPerGroup)) buf := by
  unfold ext2FreeBlock at hfree
  split_ifs at hfree with hro hrange hgroup
  · cases hfree
  · cases hfree
  · cases hfree
  have hbit : b - g.groupStart ((b - g.firstDataBlock) / g.blocksPerGroup) =
      (b - g.firstDataBlock) % g.blocksPerGroup := by
    have := Nat.div_add_mod' (b - g.firstDataBlock) g.blocksPerGroup
    unfold Layout.groupStart
    omega
  rw [hbit] at hfree
  unfold freeBit at hfree
  split_ifs at hfree with hmem
  · cases hfree
  rcases readBlock_cases g.toLayout s
    (g.bitmapBlock .block ((b - g.firstDataBlock) / g.blocksPerGroup))
    (r.bitmapRead ((b - g.firstDataBlock) / g.blocksPerGroup)) with ⟨e, he⟩ | hok
  · rw [he] at hfree
    cases hfree
  · rw [hok] at hfree
    simp only at hfree
    split_ifs at hfree with hused
    · cases hfree
    rcases hwrite : writeBlock g.toLayout s
      (g.bitmapBlock .block ((b - g.firstDataBlock) / g.blocksPerGroup))
      (Bitmap.put (s.disk (g.bitmapBlock .block ((b - g.firstDataBlock) / g.blocksPerGroup)))
        ((b - g.firstDataBlock) % g.blocksPerGroup) false)
      (r.bitmapWrite ((b - g.firstDataBlock) / g.blocksPerGroup)) with ⟨e | u, s'⟩
    · rw [hwrite] at hfree
      cases hfree
    · rw [hwrite] at hfree
      obtain ⟨buf, hdesc⟩ := writeGroupDesc_ok hfree
      refine ⟨by omega, by omega, ?_, buf, ?_⟩
      · unfold blockUsed
        simpa using hused
      · rw [hdesc, writeBlock_ok hwrite]
        rfl

theorem ext2FreeBlock_disk (hfree : ext2FreeBlock g.toLayout b r s = (.ok (), t)) {x : ℕ} (hx : x ∉ g.metadata) :
    t.disk x = s.disk x := by
  obtain ⟨-, hgroup, -, buf, hdisk⟩ := ext2FreeBlock_ok hfree
  have hbitmap : x ≠ g.bitmapBlock .block ((b - g.firstDataBlock) / g.blocksPerGroup) := by
    rintro rfl
    have := g.bitmap_mem .block hgroup
    exact hx (by simp [Layout.metadata, this])
  have hdesc : x ≠ g.descBlock ((b - g.firstDataBlock) / g.blocksPerGroup) := by
    rintro rfl
    have := g.desc_mem hgroup
    exact hx (by simp [Layout.metadata, this])
  rw [hdisk, update_of_ne hdesc, update_of_ne hbitmap]

theorem group_lt {b : ℕ} (hfirst : g.firstDataBlock ≤ b) (hlt : b < g.blocksCount) :
    (b - g.firstDataBlock) / g.blocksPerGroup < g.nrGroups := by
  rw [g.nrGroups_eq, Nat.div_lt_iff_lt_mul g.blocksPerGroup_pos]
  have hlast := Nat.lt_div_mul_add g.blocksPerGroup_pos (a := g.blocksCount - g.firstDataBlock + g.blocksPerGroup - 1)
  have := g.blocksPerGroup_pos
  omega

theorem ext2FreeBlock_used (hfree : ext2FreeBlock g.toLayout b r s = (.ok (), t)) {x : ℕ}
    (hfirst : g.firstDataBlock ≤ x) (hlt : x < g.blocksCount) :
    blockUsed g.toLayout t x = (blockUsed g.toLayout s x && !(b == x)) := by
  obtain ⟨hb, hgroup, -, buf, hdisk⟩ := ext2FreeBlock_ok hfree
  have hx := group_lt hfirst hlt
  unfold blockUsed
  rw [hdisk, update_of_ne (g.desc_ne_bitmap .block hgroup hx).symm]
  by_cases hsame : (x - g.firstDataBlock) / g.blocksPerGroup = (b - g.firstDataBlock) / g.blocksPerGroup
  · rw [hsame, update_self]
    by_cases hbit : (x - g.firstDataBlock) % g.blocksPerGroup = (b - g.firstDataBlock) % g.blocksPerGroup
    · have heq : b = x := by
        have h₁ := Nat.div_add_mod (x - g.firstDataBlock) g.blocksPerGroup
        have h₂ := Nat.div_add_mod (b - g.firstDataBlock) g.blocksPerGroup
        rw [hsame, hbit] at h₁
        omega
      rw [hbit, Bitmap.bit_put_self, heq, beq_self_eq_true, Bool.not_true, Bool.and_false]
    · have hne : b ≠ x := by
        rintro rfl
        exact hbit rfl
      rw [Bitmap.bit_put_other _ _ hbit, beq_false_of_ne hne, Bool.not_false, Bool.and_true]
  · have hblock : g.bitmapBlock .block ((x - g.firstDataBlock) / g.blocksPerGroup) ≠
        g.bitmapBlock .block ((b - g.firstDataBlock) / g.blocksPerGroup) :=
      fun h => hsame (g.bitmap_inj hx hgroup h).2
    have hne : b ≠ x := by
      rintro rfl
      exact hsame rfl
    rw [update_of_ne hblock, beq_false_of_ne hne, Bool.not_false, Bool.and_true]

end Free

/-! ## Pointers in a buffer -/

theorem read32_clear (p : Buffer) (i j : ℕ) :
    read32 (write32 p (4 * i) 0) (4 * j) = if j = i then 0 else read32 p (4 * j) := by
  unfold read32 write32
  by_cases hij : j = i
  · subst hij
    rw [if_pos rfl, if_pos (by omega), if_pos (by omega), if_pos (by omega), if_pos (by omega)]
    simp
  · rw [if_neg hij, if_neg (by omega), if_neg (by omega), if_neg (by omega), if_neg (by omega)]

/-! ## Steps that succeed -/

variable {m : Layout} {a : TruncateAnswers}

theorem andThen_ok {α β : Type*} {r : Outcome α × SizedFile} {f : α → SizedFile → Outcome β × SizedFile} {y : β}
    {st' : SizedFile} (h : andThen r f = (.ok y, st')) : ∃ x st, r = (.ok x, st) ∧ f x st = (.ok y, st') := by
  obtain ⟨e | x, st⟩ := r
  · cases h
  · exact ⟨x, st, rfl, h⟩

theorem eq_of_fst {α : Type*} {r : Outcome α × SizedFile} {x : α} (h : r.1 = .ok x) : r = (.ok x, r.2) := by
  rw [← h]

/-- What every step of a loop keeps is kept by the loop, with the part of the list that is done. -/
theorem forEach_ok {γ : Type*} {step : ℕ → γ → SizedFile → Outcome γ × SizedFile}
    {P : List ℕ → γ → SizedFile → Prop} {l : List ℕ}
    (hstep : ∀ done i rest c st c' st', l = done ++ i :: rest → P done c st → step i c st = (.ok c', st') →
      P (done ++ [i]) c' st')
    {c : γ} {st : SizedFile} (hfirst : P [] c st) {c' : γ} {st' : SizedFile}
    (hloop : forEach step l c st = (.ok c', st')) : P l c' st' := by
  suffices hgen : ∀ rest done c st, l = done ++ rest → P done c st → forEach step rest c st = (.ok c', st') →
      P l c' st' from hgen l [] c st rfl hfirst hloop
  intro rest
  induction rest with
  | nil =>
    intro done c st hl hp hrun
    cases hrun
    rw [hl, List.append_nil]
    exact hp
  | cons i rest ih =>
    intro done c st hl hp hrun
    obtain ⟨c₁, st₁, hone, hrest⟩ := andThen_ok hrun
    exact ih (done ++ [i]) c₁ st₁ (by rw [hl, List.append_assoc]; rfl) (hstep done i rest c st c₁ st₁ hl hp hone) hrest

theorem freeInodeBlock_ok {block : BitVec 32} {st st' : SizedFile} (h : freeInodeBlock m a block st = (.ok (), st')) :
    st'.freed = st.freed ++ [block] ∧ st'.inode.iBlock = st.inode.iBlock ∧
      ext2FreeBlock m block.toNat (a.free block) st.fs = (.ok (), st'.fs) := by
  unfold freeInodeBlock at h
  rcases hfree : ext2FreeBlock m block.toNat (a.free block) st.fs with ⟨e | u, s⟩
  · rw [hfree] at h
    cases h
  · rw [hfree] at h
    cases h
    exact ⟨rfl, rfl, rfl⟩

theorem GivesBack.refl (st : SizedFile) : GivesBack m [] st st := by
  refine ⟨(List.append_nil _).symm, fun b _ _ => ?_⟩
  simp

theorem GivesBack.trans {l l' : List (BitVec 32)} {st st' st'' : SizedFile} (h : GivesBack m l st st')
    (h' : GivesBack m l' st' st'') : GivesBack m (l ++ l') st st'' := by
  refine ⟨by rw [h'.1, h.1, List.append_assoc], fun b hfirst hlt => ?_⟩
  rw [h'.2 b hfirst hlt, h.2 b hfirst hlt, List.any_append, Bool.not_or, Bool.and_assoc]

theorem GivesBack.congr {l : List (BitVec 32)} {st st' st'' : SizedFile} (h : GivesBack m l st st')
    (hfreed : st''.freed = st'.freed) (hdisk : ∀ x ∈ m.bitmaps .block, st''.fs.disk x = st'.fs.disk x)
    (hgroup : ∀ b, m.firstDataBlock ≤ b → b < m.blocksCount →
      m.bitmapBlock .block ((b - m.firstDataBlock) / m.blocksPerGroup) ∈ m.bitmaps .block) : GivesBack m l st st'' := by
  refine ⟨hfreed.trans h.1, fun b hfirst hlt => ?_⟩
  rw [← h.2 b hfirst hlt, blockUsed, blockUsed, hdisk _ (hgroup b hfirst hlt)]

theorem freeInodeBlock_givesBack {g : Geometry} {block : BitVec 32} {st st' : SizedFile}
    (h : freeInodeBlock g.toLayout a block st = (.ok (), st')) : GivesBack g.toLayout [block] st st' := by
  obtain ⟨hlog, -, hfree⟩ := freeInodeBlock_ok h
  refine ⟨hlog, fun b hfirst hlt => ?_⟩
  rw [ext2FreeBlock_used hfree hfirst hlt]
  simp

/-- A round of the loop of `ext2_free_branch` passes over a pointer, keeps it without a look, or goes below it. -/
theorem freeChild_cases {newBlocks level start i : ℕ}
    {below : BitVec 32 → ℕ → SizedFile → Outcome Bool × SizedFile} {b b' : Branch} {st st' : SizedFile}
    (hper : 0 < per m) (hzero : level = 0 → ∀ w s st, below w s st = (.ok true, st))
    (h : freeChild m a newBlocks level below start i b st = (.ok b', st')) :
    (read32 b.ptrs (4 * i) = 0 ∧ b' = b ∧ st' = st) ∨
      (read32 b.ptrs (4 * i) ≠ 0 ∧ start + i * per m ^ level + per m ^ level ≤ newBlocks ∧
        b' = { b with allZero := false } ∧ st' = st) ∨
      (read32 b.ptrs (4 * i) ≠ 0 ∧ newBlocks < start + i * per m ^ level + per m ^ level ∧
        ∃ empty st₁, below (read32 b.ptrs (4 * i)) (start + i * per m ^ level) st = (.ok empty, st₁) ∧
          ((empty = false ∧ b' = { b with allZero := false } ∧ st' = st₁) ∨
            (empty = true ∧ freeInodeBlock m a (read32 b.ptrs (4 * i)) st₁ = (.ok (), st') ∧
              b' = b.clear i))) := by
  unfold freeChild at h
  simp only at h
  generalize read32 b.ptrs (4 * i) = w at h ⊢
  generalize hs : start + i * per m ^ level = s at h ⊢
  by_cases hw : w = 0
  · rw [if_pos hw] at h
    cases h
    exact Or.inl ⟨hw, rfl, rfl⟩
  · rw [if_neg hw] at h
    by_cases hlevel : level = 0
    · rw [if_pos hlevel] at h
      subst hlevel
      by_cases hpast : newBlocks ≤ s
      · rw [if_pos hpast] at h
        obtain ⟨u, st₁, hfree, hrest⟩ := andThen_ok h
        cases hrest
        exact Or.inr (Or.inr ⟨hw, by rw [Nat.pow_zero]; omega, true, st, hzero rfl w s st, Or.inr ⟨rfl, hfree, rfl⟩⟩)
      · rw [if_neg hpast] at h
        cases h
        exact Or.inr (Or.inl ⟨hw, by rw [Nat.pow_zero]; omega, rfl, rfl⟩)
    · rw [if_neg hlevel] at h
      by_cases hpast : newBlocks ≤ s
      · rw [if_pos hpast] at h
        obtain ⟨empty, st₁, hbelow, hrest⟩ := andThen_ok h
        cases empty with
        | false => cases hrest
        | true =>
          obtain ⟨u, st₂, hfree, hlast⟩ := andThen_ok hrest
          cases hlast
          refine Or.inr (Or.inr ⟨hw, ?_, true, st₁, hbelow, Or.inr ⟨rfl, hfree, rfl⟩⟩)
          have := Nat.pow_pos (n := level) hper
          omega
      · rw [if_neg hpast] at h
        by_cases hinside : newBlocks < s + per m ^ level
        · rw [if_pos hinside] at h
          obtain ⟨empty, st₁, hbelow, hrest⟩ := andThen_ok h
          cases empty with
          | false =>
            cases hrest
            exact Or.inr (Or.inr ⟨hw, hinside, false, _, hbelow, Or.inl ⟨rfl, rfl, rfl⟩⟩)
          | true =>
            obtain ⟨u, st₂, hfree, hlast⟩ := andThen_ok hrest
            cases hlast
            exact Or.inr (Or.inr ⟨hw, hinside, true, st₁, hbelow, Or.inr ⟨rfl, hfree, rfl⟩⟩)
        · rw [if_neg hinside] at h
          cases h
          exact Or.inr (Or.inl ⟨hw, by omega, rfl, rfl⟩)

/-! ## Below an indirect block -/

theorem Geometry.per_pos (g : Geometry) : 0 < per g.toLayout := by
  have := g.blockSize_eq
  unfold per
  omega

section Cutting

variable {g : Geometry} {c : BitVec 32 → ℕ → BitVec 32} {newBlocks h level start : ℕ} {v : BitVec 32}
  {st st₀ st' : SizedFile} {empty : Bool}

/-- The disk holds a tree below a pointer, whose indirect blocks are its own. -/
structure Subtree (g : Geometry) (c : BitVec 32 → ℕ → BitVec 32) (h start : ℕ) (v : BitVec 32) (st : SizedFile) :
    Prop where
  agree : ∀ b ∈ nodes c (per g.toLayout) h start v, ∀ i, pointer st.fs b i = c b i
  nodup : (nodes c (per g.toLayout) h start v).Nodup
  apart : ∀ b ∈ nodes c (per g.toLayout) h start v, b.toNat ∉ g.metadata

theorem pointer_congr {s t : State} {b : BitVec 32} (hdisk : t.disk b.toNat = s.disk b.toNat) (i : ℕ) :
    pointer t b i = pointer s b i := by
  rw [pointer, pointer, hdisk]

theorem Subtree.frame (ht : Subtree g c h start v st)
    (hdisk : ∀ b ∈ nodes c (per g.toLayout) h start v, st'.fs.disk b.toNat = st.fs.disk b.toNat) :
    Subtree g c h start v st' where
  agree b hb i := by rw [pointer_congr (hdisk b hb), ht.agree b hb]
  nodup := ht.nodup
  apart := ht.apart

theorem Subtree.child {i : ℕ} (ht : Subtree g c (h + 1) start v st) (hv : v ≠ 0) (hi : i < per g.toLayout) :
    Subtree g c h (start + i * per g.toLayout ^ h) (c v i) st where
  agree b hb := ht.agree b (nodes_of_child hv hi hb)
  nodup := nodup_child hv hi ht.nodup
  apart b hb := ht.apart b (nodes_of_child hv hi hb)

/-- What cutting below a pointer does. -/
structure Cuts (g : Geometry) (c : BitVec 32 → ℕ → BitVec 32) (newBlocks h start : ℕ) (v : BitVec 32)
    (st : SizedFile) (empty : Bool) (st' : SizedFile) : Prop where
  freed : GivesBack g.toLayout ((cutBelow c (per g.toLayout) newBlocks h start v).map Item.block) st st'
  isEmpty : empty = !stays c (per g.toLayout) newBlocks h start v
  slots : st'.inode.iBlock = st.inode.iBlock
  disk : ∀ x ∉ g.metadata, (∀ b ∈ nodes c (per g.toLayout) h start v, b.toNat ≠ x) →
    st'.fs.disk x = st.fs.disk x
  pruned : Clean c (per g.toLayout) newBlocks h start v → empty = false →
    Pruned c (per g.toLayout) newBlocks (pointer st'.fs) h start v v

/-- The loop over the pointers of an indirect block, with a list of them done. -/
structure LoopInv (g : Geometry) (c : BitVec 32 → ℕ → BitVec 32) (newBlocks level start : ℕ) (v : BitVec 32)
    (st₀ : SizedFile) (done : List ℕ) (b : Branch) (st : SizedFile) : Prop where
  ptrs : ∀ i, read32 b.ptrs (4 * i) =
    if i ∈ done then
      if staysChild c (per g.toLayout) newBlocks level start v i then c v i else 0
    else c v i
  changed : b.changed = false → ∀ i ∈ done, c v i ≠ 0 →
    staysChild c (per g.toLayout) newBlocks level start v i = true
  allZero : b.allZero = !done.any (staysChild c (per g.toLayout) newBlocks level start v)
  freed : GivesBack g.toLayout
    ((done.flatMap (cutChild c (per g.toLayout) newBlocks level start v)).map Item.block) st₀ st
  slots : st.inode.iBlock = st₀.inode.iBlock
  disk : ∀ x ∉ g.metadata,
    (∀ i ∈ done, ∀ b ∈ nodes c (per g.toLayout) level (start + i * per g.toLayout ^ level) (c v i),
      b.toNat ≠ x) → st.fs.disk x = st₀.fs.disk x
  pruned : Clean c (per g.toLayout) newBlocks (level + 1) start v → ∀ i ∈ done,
    Pruned c (per g.toLayout) newBlocks (pointer st.fs) level (start + i * per g.toLayout ^ level) (c v i)
      (if staysChild c (per g.toLayout) newBlocks level start v i then c v i else 0)

/-- What the round for a pointer adds to the loop. -/
structure Round (g : Geometry) (c : BitVec 32 → ℕ → BitVec 32) (newBlocks level start : ℕ) (v : BitVec 32) (i : ℕ)
    (b : Branch) (st : SizedFile) (b' : Branch) (st' : SizedFile) : Prop where
  ptrs : b'.ptrs = b.ptrs ∧ (c v i ≠ 0 → staysChild c (per g.toLayout) newBlocks level start v i = true) ∧
      b'.changed = b.changed ∨
    staysChild c (per g.toLayout) newBlocks level start v i = false ∧ b' = b.clear i
  allZero : b'.allZero = (b.allZero && !staysChild c (per g.toLayout) newBlocks level start v i)
  freed : GivesBack g.toLayout ((cutChild c (per g.toLayout) newBlocks level start v i).map Item.block) st st'
  slots : st'.inode.iBlock = st.inode.iBlock
  disk : ∀ x ∉ g.metadata,
    (∀ b ∈ nodes c (per g.toLayout) level (start + i * per g.toLayout ^ level) (c v i), b.toNat ≠ x) →
      st'.fs.disk x = st.fs.disk x
  pruned : Clean c (per g.toLayout) newBlocks (level + 1) start v →
    Pruned c (per g.toLayout) newBlocks (pointer st'.fs) level (start + i * per g.toLayout ^ level) (c v i)
      (if staysChild c (per g.toLayout) newBlocks level start v i then c v i else 0)

/-- What is asked of the call for the level below. -/
def CutsBelow (g : Geometry) (c : BitVec 32 → ℕ → BitVec 32) (newBlocks level : ℕ)
    (below : BitVec 32 → ℕ → SizedFile → Outcome Bool × SizedFile) : Prop :=
  ∀ w s st empty st', w ≠ 0 → newBlocks < s + per g.toLayout ^ level → Subtree g c level s w st →
    below w s st = (.ok empty, st') → Cuts g c newBlocks level s w st empty st'

theorem freeChild_round {i : ℕ} {below : BitVec 32 → ℕ → SizedFile → Outcome Bool × SizedFile}
    {b b' : Branch} (hzero : level = 0 → ∀ w s st, below w s st = (.ok true, st))
    (hbelow : CutsBelow g c newBlocks level below) (hv : v ≠ 0) (hi : i < per g.toLayout)
    (hread : read32 b.ptrs (4 * i) = c v i) (ht : Subtree g c level (start + i * per g.toLayout ^ level) (c v i) st)
    (h : freeChild g.toLayout a newBlocks level below start i b st = (.ok b', st')) :
    Round g c newBlocks level start v i b st b' st' := by
  have hsame (x : BitVec 32) (j : ℕ) (hx : x ∈ nodes c (per g.toLayout) level
      (start + i * per g.toLayout ^ level) (c v i)) : pointer st.fs x j = c x j := ht.agree x hx j
  rcases freeChild_cases g.per_pos hzero h with ⟨hw, hb, hst⟩ | ⟨hw, hend, hb, hst⟩ | ⟨hw, hend, e, st₁, hrun, hcase⟩
  · rw [hread] at hw
    have hstays : staysChild c (per g.toLayout) newBlocks level start v i = false := staysChild_null hw
    subst hb hst
    exact {
      ptrs := Or.inl ⟨rfl, fun hne => absurd hw hne, rfl⟩
      allZero := by rw [hstays, Bool.not_false, Bool.and_true]
      freed := by
        rw [cutChild_null hw]
        exact GivesBack.refl st'
      slots := rfl
      disk := fun _ _ _ => rfl
      pruned := fun _ => by
        rw [hstays, hw]
        exact pruned_null mapped_null }
  · rw [hread] at hw
    have hstays : staysChild c (per g.toLayout) newBlocks level start v i = true := by
      rw [staysChild, if_pos hend]
      exact decide_eq_true hw
    subst hb hst
    exact {
      ptrs := Or.inl ⟨rfl, fun _ => hstays, rfl⟩
      allZero := by rw [hstays, Bool.not_true, Bool.and_false]
      freed := by
        rw [cutChild, if_pos hend]
        exact GivesBack.refl st'
      slots := rfl
      disk := fun _ _ _ => rfl
      pruned := fun hclean => by
        rw [hstays, if_pos rfl]
        exact (pruned_of_lives fun p hp => lives_below hv hi hclean hend hp).congr fun x hx j => hsame x j hx }
  · rw [hread] at hw hrun hcase
    have hcuts := hbelow _ _ st e st₁ hw hend ht hrun
    have hkeep : staysChild c (per g.toLayout) newBlocks level start v i =
        stays c (per g.toLayout) newBlocks level (start + i * per g.toLayout ^ level) (c v i) := by
      rw [staysChild, if_neg (by omega)]
    have hcut : cutChild c (per g.toLayout) newBlocks level start v i =
        cut c (per g.toLayout) newBlocks level (start + i * per g.toLayout ^ level) (c v i) := by
      rw [cutChild, if_neg (by omega)]
    rcases hcase with ⟨he, hb, hst⟩ | ⟨he, hfree, hb⟩
    · subst he hb hst
      have hstays : stays c (per g.toLayout) newBlocks level (start + i * per g.toLayout ^ level) (c v i) = true := by
        have := hcuts.isEmpty
        simpa using this.symm
      exact {
        ptrs := Or.inl ⟨rfl, fun _ => hkeep.trans hstays, rfl⟩
        allZero := by rw [hkeep, hstays, Bool.not_true, Bool.and_false]
        freed := by
          rw [hcut, cut_eq hw, hstays, if_pos rfl, List.append_nil]
          exact hcuts.freed
        slots := hcuts.slots
        disk := hcuts.disk
        pruned := fun hclean => by
          rw [hkeep, hstays, if_pos rfl]
          exact hcuts.pruned (clean_child hv hi hclean) rfl }
    · subst he hb
      have hstays : stays c (per g.toLayout) newBlocks level (start + i * per g.toLayout ^ level) (c v i) = false := by
        have := hcuts.isEmpty
        simpa using this.symm
      obtain ⟨-, hslots, hdisk⟩ := freeInodeBlock_ok hfree
      exact {
        ptrs := Or.inr ⟨hkeep.trans hstays, rfl⟩
        allZero := by rw [hkeep, hstays, Bool.not_false, Bool.and_true]; rfl
        freed := by
          rw [hcut, cut_eq hw, hstays, if_neg Bool.false_ne_true, List.map_append]
          exact hcuts.freed.trans (freeInodeBlock_givesBack hfree)
        slots := hslots.trans hcuts.slots
        disk := fun x hx hapart => (ext2FreeBlock_disk hdisk hx).trans (hcuts.disk x hx hapart)
        pruned := fun hclean => by
          have hmapped := staysChild_eq_mapped hv hi hclean
          rw [hkeep, hstays] at hmapped
          rw [hkeep, hstays, if_neg Bool.false_ne_true]
          exact pruned_null hmapped.symm }

theorem LoopInv.round {done : List ℕ} {i : ℕ} {b b' : Branch} (hv : v ≠ 0) (hi : i < per g.toLayout)
    (hdone : ∀ j ∈ done, j < per g.toLayout) (hnew : i ∉ done) (ht : Subtree g c (level + 1) start v st₀)
    (hinv : LoopInv g c newBlocks level start v st₀ done b st)
    (hround : Round g c newBlocks level start v i b st b' st') :
    LoopInv g c newBlocks level start v st₀ (done ++ [i]) b' st' where
  ptrs j := by
    rcases hround.ptrs with ⟨hptrs, hstays, -⟩ | ⟨hstays, hb⟩
    · rw [hptrs, hinv.ptrs j]
      by_cases hj : j = i
      · subst hj
        rw [if_neg hnew, if_pos (by simp)]
        by_cases hw : c v j = 0
        · rw [hw, ite_self]
        · rw [if_pos (hstays hw)]
      · simp [hj]
    · rw [hb, Branch.clear]
      simp only
      rw [read32_clear, hinv.ptrs j]
      by_cases hj : j = i
      · subst hj
        rw [if_pos rfl, if_pos (by simp), hstays, if_neg Bool.false_ne_true]
      · simp [hj]
  changed hchanged j hj hw := by
    rcases hround.ptrs with ⟨-, hstays, hsame⟩ | ⟨-, hb⟩
    · rcases List.mem_append.mp hj with hold | hlast
      · exact hinv.changed (hsame ▸ hchanged) j hold hw
      · obtain rfl := List.mem_singleton.mp hlast
        exact hstays hw
    · rw [hb] at hchanged
      cases hchanged
  allZero := by
    rw [hround.allZero, hinv.allZero]
    simp [Bool.not_or]
  freed := by
    rw [List.flatMap_append, List.flatMap_singleton, List.map_append]
    exact hinv.freed.trans hround.freed
  slots := hround.slots.trans hinv.slots
  disk x hx hapart := by
    rw [hround.disk x hx (hapart i (by simp)), hinv.disk x hx fun j hj => hapart j (by simp [hj])]
  pruned hclean j hj := by
    rcases List.mem_append.mp hj with hold | hlast
    · refine (hinv.pruned hclean j hold).congr fun x hx k => pointer_congr ?_ k
      have hjlt := hdone j hold
      have hij : j ≠ i := fun heq => hnew (heq ▸ hold)
      refine hround.disk _ (ht.apart x (nodes_of_child hv hjlt hx)) fun y hy heq => ?_
      rw [BitVec.eq_of_toNat_eq heq] at hy
      exact disjoint_children hv hjlt hi hij ht.nodup hx hy
    · obtain rfl := List.mem_singleton.mp hlast
      exact hround.pruned hclean

theorem forEach_freeChild {below : BitVec 32 → ℕ → SizedFile → Outcome Bool × SizedFile}
    (hzero : level = 0 → ∀ w s st, below w s st = (.ok true, st))
    (hbelow : CutsBelow g c newBlocks level below) (hv : v ≠ 0) (ht : Subtree g c (level + 1) start v st)
    {b : Branch} {ptrs : Buffer} (hptrs : ∀ i, read32 ptrs (4 * i) = c v i)
    (h : forEach (freeChild g.toLayout a newBlocks level below start) (List.range (per g.toLayout))
      ⟨ptrs, false, true⟩ st = (.ok b, st')) :
    LoopInv g c newBlocks level start v st (List.range (per g.toLayout)) b st' := by
  refine forEach_ok (P := LoopInv g c newBlocks level start v st) ?_ ?_ h
  · intro done i rest b₁ st₁ b₂ st₂ hl hinv hstep
    have hall : ∀ j ∈ done ++ i :: rest, j < per g.toLayout := fun j hj => List.mem_range.mp (hl ▸ hj)
    have hi : i < per g.toLayout := hall i (by simp)
    have hdone : ∀ j ∈ done, j < per g.toLayout := fun j hj => hall j (by simp [hj])
    have hnew : i ∉ done := by
      have hnodup : (done ++ i :: rest).Nodup := hl ▸ List.nodup_range
      intro hmem
      exact (List.nodup_append.mp hnodup).2.2 i hmem i List.mem_cons_self rfl
    have hchild := ht.child hv hi
    have hread : read32 b₁.ptrs (4 * i) = c v i := by rw [hinv.ptrs, if_neg hnew]
    refine hinv.round hv hi hdone hnew ht (freeChild_round hzero hbelow hv hi hread ?_ hstep)
    refine hchild.frame fun x hx => hinv.disk _ (hchild.apart x hx) fun j hj y hy heq => ?_
    have hij : j ≠ i := fun heq => hnew (heq ▸ hj)
    rw [BitVec.eq_of_toNat_eq heq] at hy
    exact disjoint_children hv (hdone j hj) hi hij ht.nodup hy hx
  · exact {
      ptrs := fun i => by rw [hptrs, if_neg List.not_mem_nil]
      changed := fun _ i hi => absurd hi List.not_mem_nil
      allZero := rfl
      freed := GivesBack.refl st
      slots := rfl
      disk := fun _ _ _ => rfl
      pruned := fun _ i hi => absurd hi List.not_mem_nil }

theorem readBranch_ok {branch : BitVec 32} {ptrs : Buffer} (h : readBranch m a branch st = (.ok ptrs, st')) :
    ptrs = st.fs.disk branch.toNat ∧ st' = st := by
  unfold readBranch at h
  split_ifs at h
  · cases h
  · rcases readBlock_cases m st.fs branch.toNat (a.ptrsRead branch) with ⟨e, he⟩ | hok
    · rw [he] at h
      cases h
    · rw [hok] at h
      cases h
      exact ⟨rfl, rfl⟩

theorem writeBranch_ok {branch : BitVec 32} {ptrs : Buffer} (h : writeBranch m a branch ptrs st = (.ok (), st')) :
    st' = { st with fs := { st.fs with disk := update st.fs.disk branch.toNat ptrs } } := by
  unfold writeBranch at h
  rcases hw : writeBlock m st.fs branch.toNat ptrs (a.ptrsWrite branch) with ⟨e | u, s⟩
  · rw [hw] at h
    cases h
  · rw [hw] at h
    cases h
    rw [writeBlock_ok hw]

theorem branchBody_cuts {below : BitVec 32 → ℕ → SizedFile → Outcome Bool × SizedFile}
    (hzero : level = 0 → ∀ w s st, below w s st = (.ok true, st))
    (hbelow : CutsBelow g c newBlocks level below) (hv : v ≠ 0) (ht : Subtree g c (level + 1) start v st)
    (h : branchBody g.toLayout a newBlocks level below v start st = (.ok empty, st')) :
    Cuts g c newBlocks (level + 1) start v st empty st' := by
  obtain ⟨ptrs, st₀, hread, hrest⟩ := andThen_ok h
  obtain ⟨rfl, rfl⟩ := readBranch_ok hread
  obtain ⟨b, st₁, hloop, hend⟩ := andThen_ok hrest
  have htop : v ∈ nodes c (per g.toLayout) (level + 1) start v := top_mem_nodes hv
  have hinv := forEach_freeChild hzero hbelow hv ht (fun i => ht.agree v htop i) hloop
  have hchildren (i : ℕ) (hi : i < per g.toLayout) (x : BitVec 32)
      (hx : x ∈ nodes c (per g.toLayout) level (start + i * per g.toLayout ^ level) (c v i)) :
      x.toNat ≠ v.toNat := by
    intro heq
    rw [BitVec.eq_of_toNat_eq heq] at hx
    exact not_mem_child hv hi ht.nodup hx
  have hfreed : GivesBack g.toLayout
      ((cutBelow c (per g.toLayout) newBlocks (level + 1) start v).map Item.block) st₀ st₁ := hinv.freed
  have hempty : b.allZero = !stays c (per g.toLayout) newBlocks (level + 1) start v := by
    rw [hinv.allZero, stays_succ hv]
  have hdisk (x : ℕ) (hx : x ∉ g.metadata)
      (hapart : ∀ y ∈ nodes c (per g.toLayout) (level + 1) start v, y.toNat ≠ x) :
      st₁.fs.disk x = st₀.fs.disk x :=
    hinv.disk x hx fun i hi y hy => hapart y (nodes_of_child hv (List.mem_range.mp hi) hy)
  -- The block on disk has the pointers that the loop leaves, whether it was written back or not.
  have hprune (t : SizedFile) (hother : ∀ x ≠ v.toNat, t.fs.disk x = st₁.fs.disk x)
      (hptrs : ∀ i < per g.toLayout, pointer t.fs v i =
        if staysChild c (per g.toLayout) newBlocks level start v i then c v i else 0)
      (hclean : Clean c (per g.toLayout) newBlocks (level + 1) start v) (hkept : b.allZero = false) :
      Pruned c (per g.toLayout) newBlocks (pointer t.fs) (level + 1) start v v := by
    have hmapped : mapped c (per g.toLayout) newBlocks (level + 1) start v = true := by
      rw [← stays_eq_mapped hclean]
      simpa [hkept] using hempty.symm
    refine ⟨by rw [if_pos hmapped], fun _ i hi => ?_⟩
    rw [hptrs i hi]
    refine (hinv.pruned hclean i (List.mem_range.mpr hi)).congr fun x hx j => pointer_congr ?_ j
    exact hother _ (hchildren i hi x hx)
  by_cases hwrite : (b.changed && !b.allZero) = true
  · rw [if_pos hwrite] at hend
    obtain ⟨u, st₂, hstore, hlast⟩ := andThen_ok hend
    cases hlast
    obtain rfl := writeBranch_ok hstore
    exact {
      freed := by
        refine hfreed.congr rfl (fun x hx => update_of_ne ?_ _ _) fun b hfirst hlt =>
          g.bitmap_mem .block (group_lt hfirst hlt)
        rintro rfl
        exact ht.apart v htop (by simp [Layout.metadata, hx])
      isEmpty := hempty
      slots := hinv.slots
      disk := fun x hx hapart => by
        have hne : x ≠ v.toNat := fun heq => hapart v htop heq.symm
        simp only [update_of_ne hne]
        exact hdisk x hx hapart
      pruned := fun hclean hkept => by
        refine hprune _ (fun x hne => update_of_ne hne _ _) (fun i hi => ?_) hclean hkept
        rw [pointer]
        simp only [update_self]
        rw [hinv.ptrs i, if_pos (List.mem_range.mpr hi)] }
  · rw [if_neg hwrite] at hend
    cases hend
    exact {
      freed := hfreed
      isEmpty := hempty
      slots := hinv.slots
      disk := hdisk
      pruned := fun hclean hkept => by
        refine hprune _ (fun x _ => rfl) (fun i hi => ?_) hclean hkept
        have hunchanged : b.changed = false := by
          rw [hkept] at hwrite
          simpa using hwrite
        have hsame : pointer st'.fs v i = c v i := by
          rw [← ht.agree v htop i]
          refine pointer_congr (hinv.disk _ (ht.apart v htop) fun j hj x hx => ?_) i
          exact hchildren j (List.mem_range.mp hj) x hx
        rw [hsame]
        by_cases hw : c v i = 0
        · rw [hw, ite_self]
        · rw [if_pos (hinv.changed hunchanged i (List.mem_range.mpr hi) hw)] }

/-- `ext2_free_branch` cuts below an indirect block, by induction on the level. -/
theorem ext2FreeBranch_cuts (hv : v ≠ 0) (ht : Subtree g c (level + 1) start v st)
    (h : ext2FreeBranch g.toLayout a newBlocks level v start st = (.ok empty, st')) :
    Cuts g c newBlocks (level + 1) start v st empty st' := by
  induction level generalizing start v st empty st' with
  | zero =>
    refine branchBody_cuts (fun _ _ _ _ => rfl) ?_ hv ht h
    intro w s st empty st' hw hend _ hrun
    cases hrun
    rw [Nat.pow_zero] at hend
    exact {
      freed := GivesBack.refl _
      isEmpty := by
        have hpast : ¬ s < newBlocks := by omega
        simp [stays, hpast]
      slots := rfl
      disk := fun _ _ _ => rfl
      pruned := fun _ hempty => absurd hempty (by decide) }
  | succ level ih =>
    refine branchBody_cuts (fun hzero => absurd hzero (Nat.succ_ne_zero level)) ?_ hv ht h
    intro w s st empty st' hw _ hsub hrun
    exact ih hw hsub hrun

end Cutting

/-! ## The pointers of the inode -/

section Slots

variable {g : Geometry} {c : BitVec 32 → ℕ → BitVec 32} {newBlocks slot : ℕ} {v : BitVec 32} {st st' : SizedFile}

/-- What cutting at a pointer of the inode does. -/
structure SlotCuts (g : Geometry) (c : BitVec 32 → ℕ → BitVec 32) (newBlocks slot : ℕ) (v : BitVec 32)
    (st st' : SizedFile) : Prop where
  freed : GivesBack g.toLayout
    ((cut c (per g.toLayout) newBlocks (slotHeight slot) (slotStart g.toLayout slot) v).map Item.block) st st'
  slots : ∀ k, st'.inode.iBlock k =
    if k = slot then
      if stays c (per g.toLayout) newBlocks (slotHeight slot) (slotStart g.toLayout slot) v then v else 0
    else st.inode.iBlock k
  disk : ∀ x ∉ g.metadata,
    (∀ b ∈ nodes c (per g.toLayout) (slotHeight slot) (slotStart g.toLayout slot) v, b.toNat ≠ x) →
      st'.fs.disk x = st.fs.disk x
  pruned : Clean c (per g.toLayout) newBlocks (slotHeight slot) (slotStart g.toLayout slot) v →
    Pruned c (per g.toLayout) newBlocks (pointer st'.fs) (slotHeight slot) (slotStart g.toLayout slot) v
      (if stays c (per g.toLayout) newBlocks (slotHeight slot) (slotStart g.toLayout slot) v then v else 0)

theorem SlotCuts.null (hnull : st.inode.iBlock slot = 0) : SlotCuts g c newBlocks slot 0 st st where
  freed := by
    rw [cut_null]
    exact GivesBack.refl st
  slots k := by
    rw [ite_self]
    split_ifs with hk
    · rw [hk, hnull]
    · rfl
  disk _ _ _ := rfl
  pruned _ := by
    rw [ite_self]
    exact pruned_null mapped_null

theorem SlotCuts.of_release {empty : Bool} {st₁ st₂ : SizedFile} (hv : v ≠ 0)
    (hcuts : Cuts g c newBlocks (slotHeight slot) (slotStart g.toLayout slot) v st empty st₁) (hempty : empty = true)
    (hfree : freeInodeBlock g.toLayout a v st₁ = (.ok (), st₂)) :
    SlotCuts g c newBlocks slot v st (st₂.setSlot slot 0) := by
  have hstays : stays c (per g.toLayout) newBlocks (slotHeight slot) (slotStart g.toLayout slot) v = false := by
    have := hcuts.isEmpty
    rw [hempty] at this
    simpa using this.symm
  obtain ⟨-, hslots, hdisk⟩ := freeInodeBlock_ok hfree
  exact {
    freed := by
      rw [cut_eq hv, hstays, if_neg Bool.false_ne_true, List.map_append]
      have hlast : GivesBack g.toLayout [v] st₁ st₂ := freeInodeBlock_givesBack hfree
      exact hcuts.freed.trans hlast
    slots := fun k => by
      rw [SizedFile.setSlot, hstays, if_neg Bool.false_ne_true]
      simp only [hslots, hcuts.slots, update_apply]
    disk := fun x hx hapart => (ext2FreeBlock_disk hdisk hx).trans (hcuts.disk x hx hapart)
    pruned := fun hclean => by
      have hmapped := stays_eq_mapped hclean
      rw [hstays] at hmapped
      rw [hstays, if_neg Bool.false_ne_true]
      exact pruned_null hmapped.symm }

theorem freeDirect_cuts (hslot : slot < 12) (hpast : newBlocks ≤ slot) (hv : st.inode.iBlock slot = v)
    (h : freeDirect g.toLayout a slot () st = (.ok (), st')) : SlotCuts g c newBlocks slot v st st' := by
  unfold freeDirect at h
  simp only [hv] at h
  by_cases hw : v = 0
  · rw [if_pos hw] at h
    cases h
    rw [hw] at hv ⊢
    exact SlotCuts.null hv
  · rw [if_neg hw] at h
    obtain ⟨u, st₁, hfree, hlast⟩ := andThen_ok h
    cases hlast
    refine @SlotCuts.of_release _ _ _ _ _ _ _ true _ _ hw ?_ rfl hfree
    have hheight : slotHeight slot = 0 := by
      unfold slotHeight
      omega
    have hstart : slotStart g.toLayout slot = slot := by
      unfold slotStart
      rw [if_neg (by omega), if_neg (by omega)]
    rw [hheight, hstart]
    exact {
      freed := GivesBack.refl _
      isEmpty := by
        have hlt : ¬ slot < newBlocks := by omega
        simp [stays, hlt]
      slots := rfl
      disk := fun _ _ _ => rfl
      pruned := fun _ hempty => absurd hempty (by decide) }

theorem freeSlot_cuts (hslot : 12 ≤ slot) (hv : st.inode.iBlock slot = v)
    (ht : Subtree g c (slotHeight slot) (slotStart g.toLayout slot) v st)
    (h : freeSlot g.toLayout a newBlocks slot () st = (.ok (), st')) : SlotCuts g c newBlocks slot v st st' := by
  unfold freeSlot at h
  simp only [hv] at h
  by_cases hw : v = 0
  · rw [if_pos hw] at h
    cases h
    rw [hw] at hv ⊢
    exact SlotCuts.null hv
  · rw [if_neg hw] at h
    obtain ⟨empty, st₁, hbranch, hrest⟩ := andThen_ok h
    have hheight : slotHeight slot = slot - 12 + 1 := by
      unfold slotHeight
      omega
    have hcuts : Cuts g c newBlocks (slotHeight slot) (slotStart g.toLayout slot) v st empty st₁ := by
      rw [hheight] at ht ⊢
      exact ext2FreeBranch_cuts hw ht hbranch
    cases hempty : empty with
    | true =>
      rw [hempty, if_pos rfl] at hrest
      obtain ⟨u, st₂, hfree, hlast⟩ := andThen_ok hrest
      cases hlast
      exact SlotCuts.of_release hw hcuts hempty hfree
    | false =>
      rw [hempty, if_neg Bool.false_ne_true] at hrest
      cases hrest
      have hstays : stays c (per g.toLayout) newBlocks (slotHeight slot) (slotStart g.toLayout slot) v = true := by
        have := hcuts.isEmpty
        rw [hempty] at this
        simpa using this.symm
      exact {
        freed := by
          rw [cut_eq hw, hstays, if_pos rfl, List.append_nil]
          exact hcuts.freed
        slots := fun k => by
          rw [hcuts.slots, hstays, if_pos rfl]
          split_ifs with hk
          · rw [hk, hv]
          · rfl
        disk := hcuts.disk
        pruned := fun hclean => by
          rw [hstays, if_pos rfl]
          exact hcuts.pruned hclean hempty }

end Slots

/-! ## The two loops -/

section File

variable {g : Geometry} {newBlocks slot : ℕ} {st st' : SizedFile}

/-- The indirect blocks that a pointer of the inode leads to. -/
def slotNodes (m : Layout) (st : FileState) (slot : ℕ) : List (BitVec 32) :=
  nodes (pointer st.fs) (per m) (slotHeight slot) (slotStart m slot) (st.inode.iBlock slot)

/-- What the loops take out at a pointer, and what is dead there. -/
def slotCut (m : Layout) (newBlocks : ℕ) (st : FileState) (slot : ℕ) : List (Item (BitVec 32)) :=
  cut (pointer st.fs) (per m) newBlocks (slotHeight slot) (slotStart m slot) (st.inode.iBlock slot)

def slotDead (m : Layout) (newBlocks : ℕ) (st : FileState) (slot : ℕ) : List (Item (BitVec 32)) :=
  dead (pointer st.fs) (per m) newBlocks (slotHeight slot) (slotStart m slot) (st.inode.iBlock slot)

/-- A pointer after its round. -/
def slotAfter (m : Layout) (newBlocks : ℕ) (st : FileState) (slot : ℕ) : BitVec 32 :=
  if stays (pointer st.fs) (per m) newBlocks (slotHeight slot) (slotStart m slot) (st.inode.iBlock slot) then
    st.inode.iBlock slot
  else 0

theorem fileItems_nodes (m : Layout) (st : FileState) :
    ((fileItems m st).filter fun p => p.height ≠ 0).map Item.block = (List.range 15).flatMap (slotNodes m st) := by
  rw [fileItems, List.filter_flatMap, List.map_flatMap]
  rfl

theorem Ext2File.subtree (f : Ext2File g) (hslot : slot < 15) :
    Subtree g (pointer f.fs) (slotHeight slot) (slotStart g.toLayout slot) (f.inode.iBlock slot) f.toSizedFile where
  agree _ _ _ := rfl
  nodup := by
    have hnodup := f.nodup
    rw [fileItems_nodes] at hnodup
    exact (List.nodup_flatMap.mp hnodup).1 slot (List.mem_range.mpr hslot)
  apart b hb := by
    obtain ⟨p, hp, hheight, rfl⟩ := mem_nodes.mp hb
    exact f.apart p (List.mem_flatMap.mpr ⟨slot, List.mem_range.mpr hslot, hp⟩) hheight

/-- Two pointers of an inode lead to different indirect blocks. -/
theorem Ext2File.disjoint (f : Ext2File g) {k : ℕ} (hslot : slot < 15) (hk : k < 15) (hne : slot ≠ k)
    {x y : BitVec 32} (hx : x ∈ slotNodes g.toLayout f.toFileState slot)
    (hy : y ∈ slotNodes g.toLayout f.toFileState k) : x.toNat ≠ y.toNat := by
  intro heq
  obtain rfl := BitVec.eq_of_toNat_eq heq
  have hnodup := f.nodup
  rw [fileItems_nodes] at hnodup
  have hpair := (List.nodup_flatMap.mp hnodup).2
  have hrange : (List.range 15).length = 15 := List.length_range
  rcases Nat.lt_or_gt_of_ne hne with hlt | hlt
  · have hdisjoint := List.pairwise_iff_getElem.mp hpair slot k (by omega) (by omega) hlt
    simp only [List.getElem_range] at hdisjoint
    exact hdisjoint hx hy
  · have hdisjoint := List.pairwise_iff_getElem.mp hpair k slot (by omega) (by omega) hlt
    simp only [List.getElem_range] at hdisjoint
    exact hdisjoint hy hx

/-- A truncation with the rounds for some pointers done. -/
structure FileInv (g : Geometry) (newBlocks : ℕ) (f : SizedFile) (done : List ℕ) (st : SizedFile) : Prop where
  freed : GivesBack g.toLayout ((done.flatMap (slotCut g.toLayout newBlocks f.toFileState)).map Item.block) f st
  slots : ∀ k, st.inode.iBlock k =
    if k ∈ done then slotAfter g.toLayout newBlocks f.toFileState k else f.inode.iBlock k
  disk : ∀ x ∉ g.metadata, (∀ k ∈ done, ∀ b ∈ slotNodes g.toLayout f.toFileState k, b.toNat ≠ x) →
    st.fs.disk x = f.fs.disk x
  pruned : ∀ k ∈ done,
    Clean (pointer f.fs) (per g.toLayout) newBlocks (slotHeight k) (slotStart g.toLayout k) (f.inode.iBlock k) →
      Pruned (pointer f.fs) (per g.toLayout) newBlocks (pointer st.fs) (slotHeight k) (slotStart g.toLayout k)
        (f.inode.iBlock k) (slotAfter g.toLayout newBlocks f.toFileState k)

theorem FileInv.round {f : Ext2File g} {done : List ℕ} (hdone : ∀ k ∈ done, k < 15) (hslot : slot < 15)
    (hnew : slot ∉ done) (hinv : FileInv g newBlocks f.toSizedFile done st)
    (hcuts : SlotCuts g (pointer f.fs) newBlocks slot (f.inode.iBlock slot) st st') :
    FileInv g newBlocks f.toSizedFile (done ++ [slot]) st' where
  freed := by
    rw [List.flatMap_append, List.flatMap_singleton, List.map_append]
    exact hinv.freed.trans hcuts.freed
  slots k := by
    rw [hcuts.slots k, hinv.slots k]
    by_cases hk : k = slot
    · subst hk
      simp [slotAfter]
    · simp [hk]
  disk x hx hapart := by
    rw [hcuts.disk x hx (hapart slot (by simp)), hinv.disk x hx fun k hk => hapart k (by simp [hk])]
  pruned k hk hclean := by
    rcases List.mem_append.mp hk with hold | hlast
    · refine (hinv.pruned k hold hclean).congr fun x hx i => pointer_congr ?_ i
      have hne : slot ≠ k := fun heq => hnew (heq ▸ hold)
      refine hcuts.disk _ ((f.subtree (hdone k hold)).apart x hx) fun y hy => ?_
      exact f.disjoint hslot (hdone k hold) hne hy hx
    · obtain rfl := List.mem_singleton.mp hlast
      exact hcuts.pruned hclean

theorem FileInv.loop {f : Ext2File g} {before l : List ℕ} {step : ℕ → Unit → SizedFile → Outcome Unit × SizedFile}
    (hall : ∀ k ∈ before ++ l, k < 15) (hnodup : (before ++ l).Nodup)
    (hstep : ∀ k ∈ l, ∀ st st',
      Subtree g (pointer f.fs) (slotHeight k) (slotStart g.toLayout k) (f.inode.iBlock k) st →
        st.inode.iBlock k = f.inode.iBlock k → step k () st = (.ok (), st') →
          SlotCuts g (pointer f.fs) newBlocks k (f.inode.iBlock k) st st')
    (hinv : FileInv g newBlocks f.toSizedFile before st) {u : Unit} (h : forEach step l () st = (.ok u, st')) :
    FileInv g newBlocks f.toSizedFile (before ++ l) st' := by
  refine forEach_ok (P := fun done _ st => FileInv g newBlocks f.toSizedFile (before ++ done) st) ?_ ?_ h
  · intro done k rest _ st₁ _ st₂ hl hdone hrun
    have hmem : ∀ j ∈ before ++ done, j < 15 := fun j hj => hall j (by
      rw [hl, ← List.append_assoc]
      exact List.mem_append_left _ hj)
    have hk : k ∈ l := by
      rw [hl]
      simp
    have hnew : k ∉ before ++ done := by
      rw [hl, ← List.append_assoc] at hnodup
      intro hold
      exact (List.nodup_append.mp hnodup).2.2 k hold k List.mem_cons_self rfl
    have hlt : k < 15 := hall k (List.mem_append_right _ hk)
    rw [← List.append_assoc]
    refine hdone.round hmem hlt hnew (hstep k hk st₁ st₂ ?_ ?_ hrun)
    · refine (f.subtree hlt).frame fun x hx => hdone.disk _ ((f.subtree hlt).apart x hx) fun j hj y hy => ?_
      exact f.disjoint (hmem j hj) hlt (fun heq => hnew (heq ▸ hj)) hy hx
    · rw [hdone.slots k, if_neg hnew]
  · rw [List.append_nil]
    exact hinv

/-- The pointers that the loops come to. -/
def visited (oldBlocks newBlocks : ℕ) : List ℕ := directRange oldBlocks newBlocks ++ [12, 13, 14]

theorem mem_directRange {oldBlocks k : ℕ} :
    k ∈ directRange oldBlocks newBlocks ↔ newBlocks ≤ k ∧ k < 12 ∧ k < oldBlocks := by
  unfold directRange
  rw [List.mem_range'_1]
  omega

theorem visited_lt {oldBlocks k : ℕ} (hk : k ∈ visited oldBlocks newBlocks) : k < 15 := by
  rcases List.mem_append.mp hk with hdirect | hslot
  · have := mem_directRange.mp hdirect
    omega
  · simp only [List.mem_cons, List.not_mem_nil, or_false] at hslot
    omega

theorem visited_nodup (oldBlocks newBlocks : ℕ) : (visited oldBlocks newBlocks).Nodup := by
  refine List.nodup_append.mpr ⟨List.nodup_range' .., by decide, fun i hi j hj => ?_⟩
  have := mem_directRange.mp hi
  simp only [List.mem_cons, List.not_mem_nil, or_false] at hj
  omega

/-- A truncation that succeeds leaves the blocks alone, or goes through all of the pointers that it comes to. -/
theorem ext2Truncate_ok {size : BitVec 32} (f : Ext2File g)
    (h : ext2Truncate g.toLayout a size f.toSizedFile = (.ok (), st')) :
    (blocksOf g.toLayout f.iSize ≤ blocksOf g.toLayout size ∧ st'.freed = f.freed ∧ st'.fs = f.fs ∧
        st'.inode.iBlock = f.inode.iBlock) ∨
      (blocksOf g.toLayout size < blocksOf g.toLayout f.iSize ∧
        FileInv g (blocksOf g.toLayout size) f.toSizedFile
          (visited (blocksOf g.toLayout f.iSize) (blocksOf g.toLayout size)) st') := by
  unfold ext2Truncate at h
  simp only at h
  split_ifs at h with htype hneg hgrow
  · cases h
  · cases h
  · cases h
    exact Or.inl ⟨hgrow, rfl, rfl, rfl⟩
  · refine Or.inr ⟨by omega, ?_⟩
    obtain ⟨u, st₁, hdirect, hrest⟩ := andThen_ok h
    obtain ⟨u', st₂, hslots, hlast⟩ := andThen_ok hrest
    cases hlast
    have hfirst : FileInv g (blocksOf g.toLayout size) f.toSizedFile [] f.toSizedFile := {
      freed := GivesBack.refl _
      slots := fun k => by rw [if_neg List.not_mem_nil]
      disk := fun _ _ _ => rfl
      pruned := fun _ hk => absurd hk List.not_mem_nil }
    have hnodup := visited_nodup (blocksOf g.toLayout f.iSize) (blocksOf g.toLayout size)
    have hmid := hfirst.loop (l := directRange (blocksOf g.toLayout f.iSize) (blocksOf g.toLayout size))
      (fun k hk => visited_lt (List.mem_append_left _ hk)) (List.nodup_append.mp hnodup).1
      (fun k hk st st' _ hv hrun => by
        have := mem_directRange.mp hk
        exact freeDirect_cuts (by omega) (by omega) hv hrun) hdirect
    have hend := hmid.loop (l := [12, 13, 14]) (fun k hk => visited_lt hk) hnodup
      (fun k hk st st' ht hv hrun => freeSlot_cuts (by
        simp only [List.mem_cons, List.not_mem_nil, or_false] at hk
        omega) hv ht hrun) hslots
    exact ⟨hend.freed, hend.slots, hend.disk, hend.pruned⟩

/-! ## The blocks of the file afterwards -/

theorem follow_eq_reach (s : State) (v : BitVec 32) (path : List ℕ) : follow s v path = reach (pointer s) v path := by
  induction path generalizing v with
  | nil => rfl
  | cons i path ih =>
    rw [follow, reach]
    split_ifs
    · rfl
    · exact ih _

/-- The path of a block is the one of its number below a pointer of the inode. -/
theorem blockPath_eq {m : Layout} (b : FileBlock m) :
    ∃ slot < 15, ∃ n < per m ^ slotHeight slot,
      blockPath m b.index = (slot, digits (per m) (slotHeight slot) n) ∧ slotStart m slot + n = b.index := by
  have hlt := b.lt
  unfold blockPath
  by_cases hdirect : b.index < 12
  · have hheight : slotHeight b.index = 0 := by
      unfold slotHeight
      omega
    refine ⟨b.index, by omega, 0, by rw [hheight]; exact Nat.one_pos, ?_, ?_⟩
    · simp only [if_pos hdirect]
      rw [hheight, digits]
    · unfold slotStart
      rw [if_neg (by omega), if_neg (by omega), Nat.add_zero]
  · by_cases hsingle : b.index < 12 + per m
    · refine ⟨12, by decide, b.index - 12, ?_, ?_, ?_⟩
      · show b.index - 12 < per m ^ 1
        rw [Nat.pow_one]
        omega
      · simp only [if_neg hdirect, if_pos hsingle]
        show _ = (12, digits (per m) 1 (b.index - 12))
        simp [digits]
      · show 12 + (b.index - 12) = b.index
        omega
    · by_cases hdouble : b.index < 12 + per m + per m * per m
      · refine ⟨13, by decide, b.index - (12 + per m), ?_, ?_, ?_⟩
        · show b.index - (12 + per m) < per m ^ 2
          rw [Nat.pow_two]
          omega
        · simp only [if_neg hdirect, if_neg hsingle, if_pos hdouble]
          show _ = (13, digits (per m) 2 (b.index - (12 + per m)))
          simp [digits]
        · show 12 + per m + (b.index - (12 + per m)) = b.index
          omega
      · refine ⟨14, by decide, b.index - (12 + per m + per m * per m), ?_, ?_, ?_⟩
        · show b.index - (12 + per m + per m * per m) < per m ^ 3
          rw [Nat.pow_succ, Nat.pow_two]
          omega
        · simp only [if_neg hdirect, if_neg hsingle, if_neg hdouble]
          show _ = (14, digits (per m) 3 (b.index - (12 + per m + per m * per m)))
          simp [digits, Nat.pow_two, Nat.mod_mul_right_div_self]
        · show 12 + per m + per m * per m + (b.index - (12 + per m + per m * per m)) = b.index
          omega

theorem mapped_of_pointers {m : Layout} {st st' : SizedFile}
    (hpointers : ∀ slot < 15, Pruned (pointer st.fs) (per m) newBlocks (pointer st'.fs) (slotHeight slot)
      (slotStart m slot) (st.inode.iBlock slot) (st'.inode.iBlock slot)) (b : FileBlock m) :
    denoted m b.index st'.toFileState = if b.index < newBlocks then denoted m b.index st.toFileState else 0 := by
  obtain ⟨slot, hslot, n, hn, hpath, hindex⟩ := blockPath_eq b
  rw [denoted, denoted, hpath, follow_eq_reach, follow_eq_reach, (hpointers slot hslot).reach_eq hn, hindex]

/-! ## When a truncation does what it is for -/

theorem fileItems_dead (m : Layout) (st : FileState) :
    (fileItems m st).filter (fun p => !liveAt m st newBlocks p) = (List.range 15).flatMap (slotDead m newBlocks st) := by
  rw [fileItems, List.filter_flatMap]
  rfl

theorem truncated_iff_of_grow {f : Ext2File g} (hgrow : blocksOf g.toLayout f.iSize ≤ newBlocks)
    (hfreed : st'.freed = f.freed) (hfs : st'.fs = f.fs) (hslots : st'.inode.iBlock = f.inode.iBlock) :
    Truncated g.toLayout newBlocks f.toSizedFile st' ↔ NothingMissed g.toLayout newBlocks f.toSizedFile := by
  constructor
  · intro h slot hslot p hp
    obtain ⟨l, hl, hperm⟩ := h.freed
    have hnil : l = [] := List.append_cancel_left (hl.1.symm.trans (hfreed.trans (List.append_nil _).symm))
    rw [hnil] at hperm
    have hdead := List.map_eq_nil_iff.mp hperm.nil_eq.symm
    have hlive := List.filter_eq_nil_iff.mp hdead p (List.mem_flatMap.mpr ⟨slot, List.mem_range.mpr hslot, hp⟩)
    exact Or.inl (by simpa using hlive)
  · intro h
    have hlive (slot : ℕ) (hslot : slot < 15) (p : Item (BitVec 32))
        (hp : p ∈ slotItems g.toLayout f.toFileState slot) : liveAt g.toLayout f.toFileState newBlocks p = true := by
      rcases h slot hslot p hp with hlives | hcomes
      · exact hlives
      · have := hcomes.1
        omega
    have hpointers : ∀ slot < 15, Pruned (pointer f.fs) (per g.toLayout) newBlocks (pointer st'.fs) (slotHeight slot)
        (slotStart g.toLayout slot) (f.inode.iBlock slot) (st'.inode.iBlock slot) := by
      intro slot hslot
      rw [hfs, hslots]
      exact pruned_of_lives fun p hp => hlive slot hslot p hp
    have hnothing : GivesBack g.toLayout [] f.toSizedFile st' := by
      refine ⟨by rw [hfreed, List.append_nil], fun b _ _ => ?_⟩
      rw [hfs]
      simp
    refine ⟨⟨[], hnothing, ?_⟩, hpointers, mapped_of_pointers hpointers⟩
    have hnone : (List.range 15).flatMap (slotDead g.toLayout newBlocks f.toFileState) = [] :=
      List.flatMap_eq_nil_iff.mpr fun slot hslot =>
        dead_eq_nil fun p hp => hlive slot (List.mem_range.mp hslot) p hp
    rw [fileItems_dead, hnone]
    exact List.Perm.refl _

/-- The pointers of the inode, those first that the loops come to. -/
theorem range_perm (oldBlocks newBlocks : ℕ) :
    (List.range 15).Perm (visited oldBlocks newBlocks ++
      (List.range 15).filter fun k => k ∉ visited oldBlocks newBlocks) := by
  refine (List.perm_ext_iff_of_nodup List.nodup_range ?_).mpr fun k => ?_
  · refine List.nodup_append.mpr ⟨visited_nodup _ _, List.nodup_range.filter _, ?_⟩
    rintro i hi j hj rfl
    exact of_decide_eq_true (List.mem_filter.mp hj).2 hi
  · rw [List.mem_append, List.mem_filter, List.mem_range, decide_eq_true_eq]
    constructor
    · intro hk
      by_cases hmem : k ∈ visited oldBlocks newBlocks
      · exact Or.inl hmem
      · exact Or.inr ⟨hk, hmem⟩
    · rintro (hk | ⟨hk, -⟩)
      · exact visited_lt hk
      · exact hk

theorem truncated_iff_of_shrink {f : Ext2File g} (hshrink : newBlocks < blocksOf g.toLayout f.iSize)
    (hinv : FileInv g newBlocks f.toSizedFile (visited (blocksOf g.toLayout f.iSize) newBlocks) st') :
    Truncated g.toLayout newBlocks f.toSizedFile st' ↔ NothingMissed g.toLayout newBlocks f.toSizedFile := by
  set old := blocksOf g.toLayout f.iSize with hold
  have hperm := (range_perm old newBlocks).flatMap_right (slotDead g.toLayout newBlocks f.toFileState)
  rw [List.flatMap_append] at hperm
  constructor
  · intro h slot hslot p hp
    by_cases hlive : liveAt g.toLayout f.toFileState newBlocks p = true
    · exact Or.inl hlive
    refine Or.inr ⟨hshrink, ?_⟩
    have hdead : p ∈ slotDead g.toLayout newBlocks f.toFileState slot :=
      List.mem_filter.mpr ⟨hp, by simpa [liveAt] using hlive⟩
    obtain ⟨l, hl, hfreed⟩ := h.freed
    obtain rfl := List.append_cancel_left (hl.1.symm.trans hinv.freed.1)
    rw [fileItems_dead] at hfreed
    have hlen := hfreed.length_eq
    rw [List.length_map, List.length_map, hperm.length_eq, List.length_append] at hlen
    have hsub : ∀ k ∈ visited old newBlocks,
        (slotCut g.toLayout newBlocks f.toFileState k).Sublist (slotDead g.toLayout newBlocks f.toFileState k) :=
      fun k _ => cut_sublist
    have hle := (List.Sublist.flatMap_right _ hsub).length_le
    have hrest := List.eq_nil_of_length_eq_zero (by omega :
      (((List.range 15).filter fun k => k ∉ visited old newBlocks).flatMap
        (slotDead g.toLayout newBlocks f.toFileState)).length = 0)
    have hvisited : slot ∈ visited old newBlocks := by
      by_contra hmiss
      have hnil := List.flatMap_eq_nil_iff.mp hrest slot
        (List.mem_filter.mpr ⟨List.mem_range.mpr hslot, decide_eq_true hmiss⟩)
      rw [hnil] at hdead
      cases hdead
    have heq := eq_of_flatMap_length hsub (by omega) slot hvisited
    rw [← heq] at hdead
    split_ifs with hdirect
    · rcases List.mem_append.mp hvisited with hmem | hmem
      · exact (mem_directRange.mp hmem).2.2
      · simp only [List.mem_cons, List.not_mem_nil, or_false] at hmem
        omega
    · exact mem_cut hdead
  · intro h
    have hclean (slot : ℕ) (hslot : slot ∈ visited old newBlocks) :
        Clean (pointer f.fs) (per g.toLayout) newBlocks (slotHeight slot) (slotStart g.toLayout slot)
          (f.inode.iBlock slot) := by
      intro p hp
      by_cases hdirect : slot < 12
      · have hle := height_le hp
        have hheight : slotHeight slot = 0 := by
          unfold slotHeight
          omega
        exact Or.inr (Or.inl (by omega))
      · rcases h slot (visited_lt hslot) p hp with hlive | hcomes
        · exact Or.inl hlive
        · have hpart := hcomes.2
          rw [if_neg hdirect] at hpart
          exact Or.inr hpart
    have hmiss (slot : ℕ) (hslot : slot < 15) (hnot : slot ∉ visited old newBlocks) (p : Item (BitVec 32))
        (hp : p ∈ slotItems g.toLayout f.toFileState slot) : liveAt g.toLayout f.toFileState newBlocks p = true := by
      have hdirect : slot < 12 := by
        by_contra hge
        have hmem : slot ∈ [12, 13, 14] := by
          simp only [List.mem_cons, List.not_mem_nil, or_false]
          omega
        exact hnot (List.mem_append_right _ hmem)
      rcases h slot hslot p hp with hlive | hcomes
      · exact hlive
      · have hlt := hcomes.2
        rw [if_pos hdirect] at hlt
        have hbelow : slot < newBlocks := by
          by_contra hge
          exact hnot (List.mem_append_left _ (mem_directRange.mpr ⟨by omega, hdirect, hlt⟩))
        have hheight : slotHeight slot = 0 := by
          unfold slotHeight
          omega
        have hstart : slotStart g.toLayout slot = slot := by
          unfold slotStart
          rw [if_neg (by omega), if_neg (by omega)]
        unfold slotItems at hp
        rw [hheight, hstart] at hp
        have hzero := height_le hp
        obtain rfl := eq_top hp (by omega)
        have hv : f.inode.iBlock slot ≠ 0 := by
          intro hnull
          rw [hnull, items_null] at hp
          cases hp
        rw [liveAt, lives, mapped_zero hv]
        exact decide_eq_true hbelow
    have hpointers : ∀ slot < 15, Pruned (pointer f.fs) (per g.toLayout) newBlocks (pointer st'.fs) (slotHeight slot)
        (slotStart g.toLayout slot) (f.inode.iBlock slot) (st'.inode.iBlock slot) := by
      intro slot hslot
      rw [hinv.slots slot]
      split_ifs with hmem
      · exact hinv.pruned slot hmem (hclean slot hmem)
      · refine (pruned_of_lives fun p hp => hmiss slot hslot hmem p hp).congr fun x hx i => pointer_congr ?_ i
        refine hinv.disk _ ((f.subtree hslot).apart x hx) fun k hk y hy => ?_
        exact f.disjoint (visited_lt hk) hslot (fun heq => hmem (heq ▸ hk)) hy hx
    refine ⟨⟨_, hinv.freed, ?_⟩, hpointers, mapped_of_pointers hpointers⟩
    rw [fileItems_dead]
    refine List.Perm.map _ (List.Perm.trans ?_ hperm.symm)
    have hnone : ((List.range 15).filter fun k => k ∉ visited old newBlocks).flatMap
        (slotDead g.toLayout newBlocks f.toFileState) = [] := by
      refine List.flatMap_eq_nil_iff.mpr fun k hk => dead_eq_nil fun p hp => ?_
      obtain ⟨hrange, hnot⟩ := List.mem_filter.mp hk
      exact hmiss k (List.mem_range.mp hrange) (of_decide_eq_true hnot) p hp
    rw [hnone, List.append_nil]
    exact List.Perm.of_eq (List.flatMap_congr fun k hk => cut_eq_dead (hclean k hk))

/-- A size that is not negative is not too large for the addition. -/
theorem blocksOf_eq {size : BitVec 32} (hsize : size.msb = false) :
    blocksOf g.toLayout size = ceilBlocks g.toLayout size.toNat := by
  have hblock := g.blockSize_eq
  have hlt : size.toNat < 2 ^ 31 := by
    rw [BitVec.msb_eq_decide, decide_eq_false_iff_not] at hsize
    omega
  unfold blocksOf ceilBlocks
  congr 1
  have hone : (1 : BitVec 32).toNat = 1 := rfl
  rw [BitVec.toNat_sub, BitVec.toNat_add, BitVec.toNat_ofNat, hone]
  omega

/-- A truncation that succeeds does what it is for exactly when it comes to all that has to be given back: when the
file does not get shorter, nothing; else, no direct block is mapped past the old end, and no indirect block below the
new end, but for those that the inode points to, is without blocks. -/
theorem ext2Truncate_truncates_iff (g : Geometry) (a : TruncateAnswers) (size : BitVec 32) (f : Ext2File g)
    (st' : SizedFile) (h : ext2Truncate g.toLayout a size f.toSizedFile = (.ok (), st')) :
    Truncated g.toLayout (ceilBlocks g.toLayout size.toNat) f.toSizedFile st' ↔
      NothingMissed g.toLayout (ceilBlocks g.toLayout size.toNat) f.toSizedFile := by
  have hsize : size.msb = false := by
    unfold ext2Truncate at h
    split_ifs at h with htype hneg
    · cases h
    · cases h
    · simpa using hneg
  rw [← blocksOf_eq hsize]
  rcases ext2Truncate_ok f h with ⟨hgrow, hfreed, hfs, hslots⟩ | ⟨hshrink, hinv⟩
  · exact truncated_iff_of_grow hgrow hfreed hfs hslots
  · exact truncated_iff_of_shrink hshrink hinv

end File

/-! ## A file that is cut, and a block past the end of another -/

def allFreed : TruncateAnswers where
  ptrsMem _ := true
  ptrsRead _ := true
  ptrsWrite _ := .done
  free _ := working
  currentTime := 0

/-- A write has mapped the first block and the one after the direct blocks. -/
def longFile : Ext2File twoGroups where
  toFileState := (ext2Bmap twoGroups.toLayout allLoads 12 true (ext2Bmap twoGroups.toLayout allLoads 0 true sparseFile).2).2
  iMode := sIfreg
  iSize := 13 * 1024
  iMtime := 0
  iCtime := 0
  freed := []
  nodup := by decide +kernel
  apart := by decide +kernel

theorem longFile_cut : (ext2Truncate twoGroups.toLayout allFreed 1024 longFile.toSizedFile).1 = .ok () := by
  decide +kernel

/-- The statement at the file with two blocks, which is cut to one. -/
theorem ext2Truncate_truncates_longFile :
    Truncated twoGroups.toLayout (ceilBlocks twoGroups.toLayout (1024 : BitVec 32).toNat) longFile.toSizedFile
        (ext2Truncate twoGroups.toLayout allFreed 1024 longFile.toSizedFile).2 ↔
      NothingMissed twoGroups.toLayout (ceilBlocks twoGroups.toLayout (1024 : BitVec 32).toNat)
        longFile.toSizedFile :=
  ext2Truncate_truncates_iff twoGroups allFreed 1024 longFile _ (eq_of_fst longFile_cut)

/-- The write has mapped the first block, and has failed before the size was set. -/
def failedWrite : Ext2File twoGroups where
  toFileState := (ext2Bmap twoGroups.toLayout allLoads 0 true sparseFile).2
  iMode := sIfreg
  iSize := 0
  iMtime := 0
  iCtime := 0
  freed := []
  nodup := by decide +kernel
  apart := by decide +kernel

/-- The block stays mapped when the file is truncated. -/
theorem ext2Truncate_leaves_block :
    (ext2Truncate twoGroups.toLayout allFreed 0 failedWrite.toSizedFile).1 = .ok () ∧
      ¬ Truncated twoGroups.toLayout (ceilBlocks twoGroups.toLayout (0 : BitVec 32).toNat) failedWrite.toSizedFile
        (ext2Truncate twoGroups.toLayout allFreed 0 failedWrite.toSizedFile).2 := by
  refine ⟨by decide +kernel, fun h => ?_⟩
  have hmapped := h.mapped ⟨0, by decide⟩
  exact absurd hmapped (by decide +kernel)

end Mario.Fs.Ext2
