import Mario.Mm.FileRead

/-!
# What a read of a file copies

Where `i_size` is not negative, every pass of the loop copies the next bytes of the file, and the loop ends.
Where it is negative the pages that lie in the file are read as well, and the end of the file is not found.
-/

namespace Mario.FileRead

open Mario.Filemap (einval enomem enospc eio)

variable {i : Inode} {content : ℕ → Byte} {cache : Cache} {offset pos : ℕ}

/-! ## Sizes -/

theorem length_lt (i : Inode) : i.length < wordSize := i.iSize.isLt

theorem size64_eq_of_lt (h : i.length < 2 ^ 31) : i.size64 = i.length := by
  have hmsb : i.iSize.msb = false := BitVec.msb_eq_false_iff_two_mul_lt.mpr (by
    unfold Inode.length at h
    omega)
  rw [Inode.size64, BitVec.toNat_signExtend, hmsb, BitVec.toNat_setWidth_of_le (by decide)]
  rfl

theorem size64_eq_of_le (h : 2 ^ 31 ≤ i.length) : i.size64 = i.length + (2 ^ 64 - 2 ^ 32) := by
  have hmsb : i.iSize.msb = true := BitVec.msb_eq_true_iff_two_mul_ge.mpr (by
    unfold Inode.length at h
    omega)
  rw [Inode.size64, BitVec.toNat_signExtend, hmsb, BitVec.toNat_setWidth_of_le (by decide)]
  rfl

theorem length_le_size64 (i : Inode) : i.length ≤ i.size64 := by
  rcases Nat.lt_or_ge i.length (2 ^ 31) with h | h
  · rw [size64_eq_of_lt h]
  · rw [size64_eq_of_le h]
    omega

theorem available_eq (h : pos ≤ i.length) : (i.size64 - pos) % wordSize = i.length - pos := by
  have hlt := length_lt i
  unfold wordSize at *
  rcases Nat.lt_or_ge i.length (2 ^ 31) with hsmall | hlarge
  · rw [size64_eq_of_lt hsmall]
    omega
  · rw [size64_eq_of_le hlarge]
    omega

/-! ## One pass -/

/-- The bytes of a page of the file that the method `read_page` is asked for lie in the file. -/
def Inside (i : Inode) (offset : ℕ) : Prop :=
  i.length < 2 ^ 31 ∨ offset + pageSize ≤ i.length

/-- The page at an offset has the bytes of the file. -/
def PageOf (i : Inode) (content : ℕ → Byte) (offset : ℕ) (page : Page) : Prop :=
  ∀ o < pageSize, offset + o < i.length → page o = content (offset + o)

theorem loadPage_eq (hreads : Reads i content) (hdvd : pageSize ∣ offset) (hlt : offset < i.length)
    (hinside : Inside i offset) : ∃ page, loadPage i offset = .ok page ∧ PageOf i content offset page := by
  have hsize := length_le_size64 i
  -- what the method is asked for
  have hvalid : (if i.size64 - offset < pageSize then i.size64 - offset else pageSize) =
      min pageSize (i.length - offset) := by
    rcases Nat.lt_or_ge i.length (2 ^ 31) with hsmall | hlarge
    · rw [size64_eq_of_lt hsmall]
      split_ifs <;> omega
    · have hpage := hinside.resolve_left (Nat.not_lt_of_le hlarge)
      rw [if_neg (by omega)]
      omega
  obtain ⟨hret, hbytes⟩ := hreads offset (min pageSize (i.length - offset)) hdvd (Nat.min_le_left _ _)
    (by omega)
  refine ⟨(i.readPage offset (min pageSize (i.length - offset))).2, ?_, ?_⟩
  · unfold loadPage
    rw [if_pos (by omega)]
    dsimp only
    rw [hvalid, if_pos hret]
  · intro o ho hin
    exact hbytes o (by omega)

theorem Consistent.evict (h : Consistent i content cache) (evicted : Option ℕ) :
    Consistent i content (evict evicted cache) := by
  cases evicted with
  | none => exact h
  | some gone =>
    intro index entry hentry
    by_cases heq : index = gone
    · rw [heq, FileRead.evict, Option.elim_some, Function.update_self] at hentry
      exact absurd hentry (by simp)
    · rw [FileRead.evict, Option.elim_some, Function.update_of_ne heq] at hentry
      exact h index entry hentry

theorem Consistent.update (h : Consistent i content cache) {index : ℕ} {page : Page}
    (hpage : PageOf i content (index * pageSize) page) :
    Consistent i content (Function.update cache index (some (.uptodate page))) := by
  intro index' entry hentry
  by_cases heq : index' = index
  · subst heq
    rw [Function.update_self] at hentry
    exact ⟨page, (Option.some.inj hentry).symm, hpage⟩
  · rw [Function.update_of_ne heq] at hentry
    exact h index' entry hentry

/-- A pass reads from a page of the file, and leaves the cache consistent. -/
theorem readPass_eq (hreads : Reads i content) (hcache : Consistent i content cache)
    {ans : Answer} (hans : ans.Memory) (hdvd : pageSize ∣ offset) (hlt : offset < i.length)
    (hinside : Inside i offset) :
    ∃ page cache', readPass i offset ans cache = (.ok page, cache') ∧
      Consistent i content cache' ∧ PageOf i content offset page := by
  obtain ⟨hkmalloc, hzero, huncached⟩ := hans
  have hword : offset % wordSize = offset := Nat.mod_eq_of_lt (hlt.trans (length_lt i))
  have hindex : offset / pageSize * pageSize = offset := Nat.div_mul_cancel hdvd
  obtain ⟨page, hload, hpage⟩ := loadPage_eq hreads hdvd hlt hinside
  unfold readPass filemapGetPage
  rw [hword, if_neg (by rw [Nat.mod_eq_zero_of_dvd hdvd]; decide)]
  cases hentry : cache (offset / pageSize) with
  | some entry =>
    obtain ⟨cached, rfl, hcached⟩ := hcache _ _ hentry
    rw [hindex] at hcached
    refine ⟨cached, cache, ?_, hcache, hcached⟩
    simp only [hentry]
  | none =>
    simp only [hentry, hkmalloc, Bool.not_true, Bool.false_eq_true, if_false]
    cases hroom : ans.room with
    | false =>
      refine ⟨page, cache, ?_, hcache, hpage⟩
      simp only [filemapReadUncached, huncached, hload, Bool.not_false, if_true]
    | true =>
      have hfilled : PageOf i content (offset / pageSize * pageSize) page := by
        rw [hindex]
        exact hpage
      refine ⟨page, _, ?_, (hcache.evict ans.evicted).update hfilled, hpage⟩
      simp only [fillPage, hzero, hload, Bool.not_true, Bool.false_eq_true, if_true, if_false]

theorem chunkSize_spec (hlt : pos < i.length) (left : ℕ) (hleft : 0 < left) :
    0 < chunkSize i pos left ∧ chunkSize i pos left ≤ left ∧
      pos + chunkSize i pos left ≤ i.length ∧ pos % pageSize + chunkSize i pos left ≤ pageSize := by
  have hword : pos % wordSize = pos := Nat.mod_eq_of_lt (hlt.trans (length_lt i))
  have hmod : pos % pageSize < pageSize := Nat.mod_lt _ (by decide)
  unfold chunkSize
  dsimp only
  rw [available_eq hlt.le, hword]
  split_ifs <;> omega

/-- The state after a pass that reads from a page. -/
def advance (s : ReadState) (chunk : ℕ) (page : Page) (cache : Cache) : ReadState where
  cache := cache
  pos := (s.pos + chunk) % 2 ^ 64
  out := s.out ++ (List.range chunk).map fun o => page (s.pos % wordSize % pageSize + o)

theorem readLoop_pass {answers : ℕ → Answer} {count fuel k : ℕ} {s : ReadState} {page : Page}
    (hcount : s.out.length < count) (hpos : s.pos < i.size64)
    (hpass : readPass i (pageMask (s.pos % wordSize)) (answers k) s.cache = (.ok page, cache)) :
    readLoop i answers count (fuel + 1) k s = readLoop i answers count fuel (k + 1)
        (advance s (chunkSize i s.pos (count - s.out.length)) page cache) := by
  rw [readLoop]
  dsimp only
  rw [if_neg (by omega), if_neg (by omega), hpass]
  rfl

/-! ## The loop -/

/-- So many bytes of the file from a position on have been copied. -/
structure Copied (i : Inode) (content : ℕ → Byte) (start : ℕ) (s : ReadState) : Prop where
  cache : Consistent i content s.cache
  pos : s.pos = start + s.out.length
  out : s.out = (List.range s.out.length).map fun j => content (start + j)

theorem Copied.advance {start chunk : ℕ} {s : ReadState} {page : Page} (h : Copied i content start s)
    (hcache : Consistent i content cache) (hpage : PageOf i content (pageMask s.pos) page)
    (hend : s.pos + chunk ≤ i.length) (hin : s.pos % pageSize + chunk ≤ pageSize) :
    Copied i content start (advance s chunk page cache) ∧
      (advance s chunk page cache).out.length = s.out.length + chunk := by
  have hlt := length_lt i
  have hlength : (FileRead.advance s chunk page cache).out.length = s.out.length + chunk := by
    simp [FileRead.advance]
  refine ⟨⟨hcache, ?_, ?_⟩, hlength⟩
  · rw [hlength]
    have hpos := h.pos
    have hfits : s.pos + chunk < 2 ^ 64 := by
      unfold wordSize at hlt
      omega
    simp only [FileRead.advance, Nat.mod_eq_of_lt hfits]
    omega
  · rw [hlength]
    have hbytes : (List.range chunk).map (fun o => page (s.pos % wordSize % pageSize + o)) =
        (List.range chunk).map fun o => content (s.pos + o) := by
      refine List.map_congr_left fun o ho => ?_
      have ho' : o < chunk := List.mem_range.mp ho
      have hword : s.pos % wordSize = s.pos := Nat.mod_eq_of_lt (by omega)
      have hsplit : pageMask s.pos + s.pos % pageSize = s.pos := by
        unfold pageMask
        exact Nat.div_add_mod' s.pos pageSize
      rw [hword, hpage _ (by omega) (by omega), ← Nat.add_assoc, hsplit]
    simp only [FileRead.advance]
    rw [hbytes, h.out, List.range_add, List.map_append, List.map_map, List.length_map, List.length_range]
    refine congrArg _ (List.map_congr_left fun o _ => ?_)
    simp only [Function.comp_apply]
    rw [h.pos, Nat.add_assoc]

theorem readLoop_exact {answers : ℕ → Answer} {start count n k : ℕ} {s : ReadState}
    (hreads : Reads i content) (hans : ∀ k, (answers k).Memory) (h : Copied i content start s)
    (hdone : s.out.length ≤ n) (hcount : n ≤ count) (hlength : start + n ≤ i.length)
    (hinside : ∀ q, start ≤ q → q < start + n → Inside i (pageMask q)) (hend : n = count ∨ i.size64 ≤ start + n) :
    ∃ fuel s', readLoop i answers count fuel k s = some ((n : ℤ), s') ∧
      Copied i content start s' ∧ s'.out.length = n := by
  obtain ⟨m, hm⟩ : ∃ m, n - s.out.length ≤ m := ⟨_, Nat.le_refl _⟩
  induction m generalizing s k with
  | zero =>
    have hall : s.out.length = n := by omega
    refine ⟨1, s, ?_, h, hall⟩
    rw [readLoop]
    dsimp only
    rw [hall]
    rcases hend with heq | hfile
    · rw [if_pos (by omega)]
    · have hpos := h.pos
      split_ifs <;> first | rfl | omega
  | succ m ih =>
    by_cases hall : s.out.length = n
    · exact ih h hdone (by omega)
    · have hpos := h.pos
      have hlt : s.pos < i.length := by omega
      have hword : s.pos % wordSize = s.pos := Nat.mod_eq_of_lt (hlt.trans (length_lt i))
      have hmask : pageMask s.pos ≤ s.pos := Nat.div_mul_le_self ..
      obtain ⟨page, cache', hpass, hcache', hpage⟩ := readPass_eq hreads h.cache
        (hans k) (Dvd.intro_left _ rfl) (hmask.trans_lt hlt) (hinside s.pos (by omega) (by omega))
      obtain ⟨hpositive, hleft, hfile, hin⟩ := chunkSize_spec hlt (count - s.out.length)
        (by omega)
      obtain ⟨hnext, hnextLength⟩ := h.advance hcache' hpage hfile hin
      have hsize := length_le_size64 i
      have hchunk : s.out.length + chunkSize i s.pos (count - s.out.length) ≤ n := by
        rcases hend with heq | hall'
        · omega
        · omega
      obtain ⟨fuel, s', hloop, hcopied⟩ := ih (k := k + 1) hnext (by omega) (by omega)
      refine ⟨fuel + 1, s', ?_, hcopied⟩
      rw [readLoop_pass (by omega) (by omega) (by rw [hword]; exact hpass)]
      exact hloop

theorem copied_nil (hcache : Consistent i content cache) : Copied i content pos ⟨cache, pos, []⟩ := ⟨hcache, rfl, rfl⟩

/-- The page of a position below a page boundary ends at this boundary or before. -/
theorem pageMask_add_le {p n : ℕ} (h : p < pageMask n) : pageMask p + pageSize ≤ pageMask n := by
  unfold pageMask pageSize at *
  omega

theorem le_pageMask_add {p c n : ℕ} (h : p < pageMask n) (hc : c ≤ pageSize - p % pageSize) : p + c ≤ pageMask n := by
  unfold pageMask pageSize at *
  omega

theorem pageMask_div {p n : ℕ} (h : pageMask n ≤ p) (hp : p < n) :
    pageMask p / pageSize = n / pageSize ∧ n < pageMask p + pageSize := by
  unfold pageMask pageSize at *
  omega

theorem pageMask_div_ne {p n : ℕ} (h : p < pageMask n) : n / pageSize ≠ pageMask p / pageSize := by
  unfold pageMask pageSize at *
  omega

theorem inside_of_lt_pageMask {q : ℕ} (h : q < pageMask i.length) : Inside i (pageMask q) := by
  have hpage := pageMask_add_le h
  have hmask : pageMask i.length ≤ i.length := Nat.div_mul_le_self ..
  right
  omega

theorem genericFileRead_loop {answers : ℕ → Answer} {count : ℤ} {n : ℕ} (hreg : i.isReg = true)
    (hreads : Reads i content) (hcache : Consistent i content cache) (hans : ∀ k, (answers k).Memory)
    (hcount : 0 < count) (hn : n ≤ count.toNat) (hlength : pos + n ≤ i.length)
    (hinside : ∀ q, pos ≤ q → q < pos + n → Inside i (pageMask q)) (hend : n = count.toNat ∨ i.size64 ≤ pos + n) :
    ∃ fuel s, genericFileRead i answers count fuel ⟨cache, pos, []⟩ = some ((n : ℤ), s) ∧
      s.out = (List.range n).map (fun j => content (pos + j)) ∧ s.pos = pos + n := by
  obtain ⟨fuel, s, hloop, hcopied, hall⟩ := readLoop_exact (k := 0) hreads hans
    (copied_nil hcache) (Nat.zero_le n) hn hlength hinside hend
  refine ⟨fuel, s, ?_, ?_, ?_⟩
  · rw [genericFileRead, hreg, if_neg (by simp), if_neg (by omega)]
    exact hloop
  · rw [← hall]
    exact hcopied.out
  · rw [← hall]
    exact hcopied.pos

/-- The read is exact where the end of the file is found, and where the pages that are read are whole. -/
theorem readsExactly_of {iSize : BitVec 32} {count : ℤ}
    (h : iSize.toNat < 2 ^ 31 ∨ count ≤ 0 ∨ pos + count.toNat ≤ pageMask iSize.toNat ∨
      2 ^ 64 - 2 ^ 32 + iSize.toNat ≤ pos) : ReadsExactly iSize pos count := by
  intro i content cache answers hreg hsize hreads hcache hans n
  subst hsize
  have hsize := length_le_size64 i
  by_cases hzero : count ≤ 0
  · have hn : n = 0 := by omega
    refine ⟨0, ⟨cache, pos, []⟩, ?_, ?_, ?_⟩
    · rw [genericFileRead, hreg, if_neg (by simp), if_pos hzero, hn]
      rfl
    · rw [hn]
      rfl
    · rw [hn]
      rfl
  · by_cases hbehind : i.size64 ≤ pos
    · -- the position is behind the end of the file
      have hn : n = 0 := by omega
      refine ⟨1, ⟨cache, pos, []⟩, ?_, ?_, ?_⟩
      · rw [genericFileRead, hreg, if_neg (by simp), if_neg hzero, readLoop]
        simp only [List.length_nil]
        rw [if_neg (by omega), if_pos hbehind, hn]
      · rw [hn]
        rfl
      · rw [hn]
        rfl
    · rcases Nat.lt_or_ge i.length (2 ^ 31) with hsmall | hlarge
      · have heq := size64_eq_of_lt hsmall
        refine genericFileRead_loop hreg hreads hcache hans (by omega) (by omega) (by omega)
          (fun _ _ _ => Or.inl hsmall) ?_
        omega
      · have heq := size64_eq_of_le hlarge
        have hwhole : pos + count.toNat ≤ pageMask i.length := by
          rcases h with h | h | h | h
          · exact absurd hlarge (Nat.not_le_of_lt h)
          · exact absurd h hzero
          · exact h
          · have hlength : i.length = i.iSize.toNat := rfl
            omega
        have hmask : pageMask i.length ≤ i.length := Nat.div_mul_le_self ..
        have hn : n = count.toNat := by omega
        refine genericFileRead_loop hreg hreads hcache hans (by omega) (by omega) (by omega)
          (fun q _ hq => inside_of_lt_pageMask (by omega)) (Or.inl hn)

/-! ## Files whose size is a negative number -/

/-- A file of zeros whose method `read_page` finds a hole behind the end. -/
def holeFile (iSize : BitVec 32) : Inode where
  isReg := true
  iSize := iSize
  readPage := fun _ valid => (valid, fun _ => 0)

/-- A file of zeros whose method `read_page` fails behind the end, like `fat_file_read_page` where the chain of
clusters ends. -/
def strictFile (iSize : BitVec 32) : Inode where
  isReg := true
  iSize := iSize
  readPage := fun offset valid =>
    if offset + valid ≤ iSize.toNat then (valid, fun _ => 0) else (eio, fun _ => 0)

/-- There is memory, and room in the cache. -/
def plenty : Answer := ⟨true, true, none, true, true⟩

theorem plenty_memory : plenty.Memory := ⟨rfl, rfl, rfl⟩

theorem holeFile_reads (iSize : BitVec 32) : Reads (holeFile iSize) fun _ => 0 :=
  fun _ _ _ _ _ => ⟨rfl, fun _ _ => rfl⟩

theorem strictFile_reads (iSize : BitVec 32) : Reads (strictFile iSize) fun _ => 0 := by
  intro offset valid _ _ hin
  have hret : (strictFile iSize).readPage offset valid = ((valid : ℤ), fun _ => 0) := if_pos hin
  rw [hret]
  exact ⟨rfl, fun _ _ => rfl⟩

/-- No page in the cache has an error. -/
def Clean (cache : Cache) : Prop :=
  ∀ index entry, cache index = some entry → ∃ page, entry = .uptodate page

theorem Clean.update (h : Clean cache) (index : ℕ) (page : Page) :
    Clean (Function.update cache index (some (.uptodate page))) := by
  intro index' entry hentry
  by_cases heq : index' = index
  · subst heq
    rw [Function.update_self] at hentry
    exact ⟨page, (Option.some.inj hentry).symm⟩
  · rw [Function.update_of_ne heq] at hentry
    exact h index' entry hentry

theorem readPass_of_load {page : Page} (h : Clean cache) (hdvd : pageSize ∣ offset)
    (hlt : offset < wordSize) (hload : loadPage i offset = .ok page) :
    ∃ page' cache', readPass i offset plenty cache = (.ok page', cache') ∧ Clean cache' ∧
      ∀ index, index ≠ offset / pageSize → cache' index = cache index := by
  unfold readPass filemapGetPage
  rw [Nat.mod_eq_of_lt hlt, if_neg (by rw [Nat.mod_eq_zero_of_dvd hdvd]; decide)]
  cases hentry : cache (offset / pageSize) with
  | some entry =>
    obtain ⟨cached, rfl⟩ := h _ _ hentry
    refine ⟨cached, cache, ?_, h, fun _ _ => rfl⟩
    simp only [hentry]
  | none =>
    refine ⟨page, _, ?_, h.update (offset / pageSize) page, fun _ hne => Function.update_of_ne hne _ _⟩
    simp only [hentry, plenty, fillPage, hload, evict, Bool.not_true, Bool.false_eq_true, if_true,
      if_false, Option.elim_none]

/-- A pass fails where the page is not cached and cannot be loaded. -/
theorem readPass_of_error {error : ℤ} (hentry : cache (offset / pageSize) = none)
    (hdvd : pageSize ∣ offset) (hlt : offset < wordSize) (hload : loadPage i offset = .error error)
    (hne : error ≠ enospc) : (readPass i offset plenty cache).1 = .error error := by
  unfold readPass filemapGetPage
  rw [Nat.mod_eq_of_lt hlt, if_neg (by rw [Nat.mod_eq_zero_of_dvd hdvd]; decide)]
  simp only [hentry, plenty, fillPage, hload, Bool.not_true, Bool.false_eq_true, if_true, if_false, hne]

theorem loadPage_hole (iSize : BitVec 32) (offset : ℕ) : ∃ page, loadPage (holeFile iSize) offset = .ok page := by
  unfold loadPage
  by_cases hin : offset < (holeFile iSize).size64
  · rw [if_pos hin]
    exact ⟨_, if_pos rfl⟩
  · rw [if_neg hin]
    exact ⟨_, rfl⟩

theorem pageMask_word_lt (pos : ℕ) : pageMask (pos % wordSize) < wordSize :=
  (Nat.div_mul_le_self ..).trans_lt (Nat.mod_lt _ (by decide))

theorem pageSize_dvd_mask (x : ℕ) : pageSize ∣ pageMask x := Dvd.intro_left _ rfl

variable {iSize : BitVec 32} {count fuel k : ℕ} {s s' : ReadState} {r : ℤ}

theorem readLoop_hole (h : Clean s.cache) (hcount : s.out.length < count)
    (hpos : s.pos < (holeFile iSize).size64) (fuel k : ℕ) :
    ∃ page cache', Clean cache' ∧
      readLoop (holeFile iSize) (fun _ => plenty) count (fuel + 1) k s =
        readLoop (holeFile iSize) (fun _ => plenty) count fuel (k + 1)
          (advance s (chunkSize (holeFile iSize) s.pos (count - s.out.length)) page cache') := by
  obtain ⟨page, hload⟩ := loadPage_hole iSize (pageMask (s.pos % wordSize))
  obtain ⟨page', cache', hpass, hclean, -⟩ := readPass_of_load h (pageSize_dvd_mask _) (pageMask_word_lt s.pos) hload
  exact ⟨page', cache', hclean, readLoop_pass hcount hpos hpass⟩

theorem advance_length (s : ReadState) (chunk : ℕ) (page : Page) (cache : Cache) :
    (advance s chunk page cache).out.length = s.out.length + chunk := by
  simp [advance]

theorem readLoop_hole_le (h : Clean s.cache)
    (hloop : readLoop (holeFile iSize) (fun _ => plenty) count fuel k s = some (r, s')) : (s.out.length : ℤ) ≤ r := by
  induction fuel generalizing k s with
  | zero => exact absurd hloop (by simp [readLoop])
  | succ fuel ih =>
    by_cases hcount : s.out.length < count
    · by_cases hpos : s.pos < (holeFile iSize).size64
      · obtain ⟨page, cache', hclean, hpass⟩ := readLoop_hole h hcount hpos fuel k
        rw [hpass] at hloop
        have hle := ih hclean hloop
        rw [advance_length] at hle
        omega
      · rw [readLoop] at hloop
        dsimp only at hloop
        rw [if_neg (by omega), if_pos (by omega)] at hloop
        obtain ⟨rfl, -⟩ := Prod.mk.inj (Option.some.inj hloop)
        exact Int.le_refl _
    · rw [readLoop] at hloop
      dsimp only at hloop
      rw [if_pos (by omega)] at hloop
      obtain ⟨rfl, -⟩ := Prod.mk.inj (Option.some.inj hloop)
      exact Int.le_refl _

theorem size64_lt (i : Inode) : i.size64 < 2 ^ 64 := (i.iSize.signExtend 64).isLt

/-- Below `(uint64_t) i_size` the result is not that of a read at the end. -/
theorem readLoop_hole_ne_zero (h : Clean s.cache) (hcount : 0 < count) (hout : s.out = [])
    (hpos : s.pos < (holeFile iSize).size64) :
    readLoop (holeFile iSize) (fun _ => plenty) count fuel k s ≠ some (0, s') := by
  induction fuel generalizing k s with
  | zero => simp [readLoop]
  | succ fuel ih =>
    have hdone : s.out.length < count := by
      rw [hout]
      exact hcount
    obtain ⟨page, cache', hclean, hpass⟩ := readLoop_hole h hdone hpos fuel k
    rw [hpass]
    by_cases hchunk : chunkSize (holeFile iSize) s.pos (count - s.out.length) = 0
    · -- the pass has copied nothing
      have hlt := size64_lt (holeFile iSize)
      rw [hchunk]
      refine ih hclean ?_ ?_
      · simp [advance, hout]
      · simp only [advance, Nat.add_zero]
        rw [Nat.mod_eq_of_lt (by omega)]
        exact hpos
    · intro hloop
      have hle := readLoop_hole_le hclean hloop
      rw [advance_length] at hle
      omega

theorem chunkSize_le (hpos : pos ≤ i.length) (left : ℕ) :
    chunkSize i pos left ≤ i.length - pos ∧ chunkSize i pos left ≤ left ∧
      chunkSize i pos left ≤ pageSize - pos % pageSize := by
  have hlt := length_lt i
  unfold chunkSize
  dsimp only
  rw [available_eq hpos, Nat.mod_eq_of_lt (a := pos) (by omega)]
  split_ifs <;> omega

theorem readLoop_hole_none (h : Clean s.cache) (hlarge : 2 ^ 31 ≤ (holeFile iSize).length)
    (hpos : s.pos ≤ (holeFile iSize).length) (hleft : (holeFile iSize).length - s.pos < count - s.out.length) :
    readLoop (holeFile iSize) (fun _ => plenty) count fuel k s = none := by
  have hsize := size64_eq_of_le hlarge
  have hlt := length_lt (holeFile iSize)
  induction fuel generalizing k s with
  | zero => rfl
  | succ fuel ih =>
    have hdone : s.out.length < count := by omega
    have hbefore : s.pos < (holeFile iSize).size64 := by omega
    obtain ⟨page, cache', hclean, hpass⟩ := readLoop_hole h hdone hbefore fuel k
    obtain ⟨hend, hcount, -⟩ := chunkSize_le hpos (count - s.out.length)
    have hword : (s.pos + chunkSize (holeFile iSize) s.pos (count - s.out.length)) % 2 ^ 64 =
        s.pos + chunkSize (holeFile iSize) s.pos (count - s.out.length) :=
      Nat.mod_eq_of_lt (by unfold wordSize at hlt; omega)
    rw [hpass]
    refine ih hclean ?_ ?_
    · simp only [advance, hword]
      omega
    · rw [advance_length]
      simp only [advance, hword]
      omega

theorem loadPage_strict (hlarge : 2 ^ 31 ≤ (strictFile iSize).length) (hlt : offset < (strictFile iSize).length) :
    loadPage (strictFile iSize) offset =
      if offset + pageSize ≤ iSize.toNat then .ok fun _ => 0 else .error eio := by
  have hsize := size64_eq_of_le hlarge
  have hpage : pageSize < 2 ^ 31 := by decide
  have hvalid : (if (strictFile iSize).size64 - offset < pageSize then
      (strictFile iSize).size64 - offset else pageSize) = pageSize := if_neg (by omega)
  unfold loadPage
  rw [if_pos (by omega)]
  simp only [hvalid]
  by_cases hin : offset + pageSize ≤ iSize.toNat
  · have hret : (strictFile iSize).readPage offset pageSize = ((pageSize : ℤ), fun _ => 0) :=
      if_pos hin
    rw [hret, if_pos rfl, if_pos hin]
  · have hret : (strictFile iSize).readPage offset pageSize = (eio, fun _ => 0) := if_neg hin
    rw [hret, if_neg (by decide), if_neg (by decide), if_neg hin]

/-- The bytes on the last page, which is not whole, are not read. -/
theorem readLoop_strict_ne (h : Clean s.cache) (hlarge : 2 ^ 31 ≤ (strictFile iSize).length)
    (hcache : s.cache ((strictFile iSize).length / pageSize) = none) (hcount : s.out.length < count)
    (hend : s.pos + (count - s.out.length) ≤ (strictFile iSize).length)
    (hlast : pageMask (strictFile iSize).length < s.pos + (count - s.out.length)) :
    readLoop (strictFile iSize) (fun _ => plenty) count fuel k s ≠ some ((count : ℤ), s') := by
  have hsize := size64_eq_of_le hlarge
  have hlength := length_lt (strictFile iSize)
  have hiSize : (strictFile iSize).length = iSize.toNat := rfl
  induction fuel generalizing k s with
  | zero => simp [readLoop]
  | succ fuel ih =>
    have hlt : s.pos < (strictFile iSize).length := by omega
    have hword : s.pos % wordSize = s.pos := Nat.mod_eq_of_lt (hlt.trans hlength)
    have hmask : pageMask s.pos ≤ s.pos := Nat.div_mul_le_self ..
    have hload := loadPage_strict hlarge (hmask.trans_lt hlt)
    by_cases hwhole : s.pos < pageMask (strictFile iSize).length
    · -- a whole page is read, and the last page is still ahead
      have hin : pageMask s.pos + pageSize ≤ iSize.toNat :=
        (pageMask_add_le hwhole).trans (Nat.div_mul_le_self ..)
      rw [if_pos hin] at hload
      obtain ⟨page, cache', hpass, hclean, hother⟩ := readPass_of_load h (pageSize_dvd_mask _)
        ((hmask.trans_lt hlt).trans hlength) hload
      rw [← hword] at hpass
      obtain ⟨-, hleft, hchunk⟩ := chunkSize_le hlt.le (count - s.out.length)
      have hbelow : s.pos + chunkSize (strictFile iSize) s.pos (count - s.out.length) ≤
          pageMask (strictFile iSize).length := le_pageMask_add hwhole hchunk
      have hnext : (s.pos + chunkSize (strictFile iSize) s.pos (count - s.out.length)) % 2 ^ 64 =
          s.pos + chunkSize (strictFile iSize) s.pos (count - s.out.length) :=
        Nat.mod_eq_of_lt (by unfold wordSize at hlength; omega)
      rw [readLoop_pass hcount (by omega) hpass]
      refine ih hclean ?_ ?_ ?_ ?_
      · rw [← hcache]
        exact hother _ (pageMask_div_ne hwhole)
      · rw [advance_length]
        omega
      · rw [advance_length]
        simp only [advance, hnext]
        omega
      · rw [advance_length]
        simp only [advance, hnext]
        omega
    · obtain ⟨hpage, hover⟩ := pageMask_div (Nat.le_of_not_lt hwhole) hlt
      have hout : ¬ pageMask s.pos + pageSize ≤ iSize.toNat := by omega
      rw [if_neg hout] at hload
      rw [← hpage] at hcache
      have hpass := readPass_of_error hcache (pageSize_dvd_mask _) ((hmask.trans_lt hlt).trans hlength) hload
        (by decide)
      rw [readLoop]
      dsimp only
      rw [if_neg (by omega), if_neg (by omega), hword, hpass]
      dsimp only
      intro heq
      obtain ⟨hresult, -⟩ := Prod.mk.inj (Option.some.inj heq)
      unfold eio at hresult
      split_ifs at hresult
      omega

theorem clean_empty : Clean fun _ => none := by
  intro index entry hentry
  exact absurd hentry (by simp)

theorem consistent_empty (i : Inode) (content : ℕ → Byte) : Consistent i content fun _ => none := by
  intro index entry hentry
  exact absurd hentry (by simp)

/-- A read that comes to the end of a file whose size is a negative number. -/
theorem not_readsExactly {count : ℤ} (hlarge : 2 ^ 31 ≤ iSize.toNat) (hcount : 0 < count)
    (hlast : pageMask iSize.toNat < pos + count.toNat)
    (hpos : pos < 2 ^ 64 - 2 ^ 32 + iSize.toNat) : ¬ ReadsExactly iSize pos count := by
  intro hexact
  have hsize : (holeFile iSize).size64 = iSize.toNat + (2 ^ 64 - 2 ^ 32) := size64_eq_of_le hlarge
  have hholes := hexact (holeFile iSize) (fun _ => 0) (fun _ => none) (fun _ => plenty) rfl rfl
    (holeFile_reads iSize) (consistent_empty _ _) fun _ => plenty_memory
  have hlength : (holeFile iSize).length = iSize.toNat := rfl
  rw [hlength] at hholes
  have hread : ∀ (i : Inode) fuel, i.isReg = true →
      genericFileRead i (fun _ => plenty) count fuel ⟨fun _ => none, pos, []⟩ =
        readLoop i (fun _ => plenty) count.toNat fuel 0 ⟨fun _ => none, pos, []⟩ := by
    intro i fuel hreg
    rw [genericFileRead, hreg, if_neg (by simp), if_neg (by omega)]
  rcases Nat.lt_or_ge pos iSize.toNat with hbefore | hbehind
  · rcases Nat.lt_or_ge iSize.toNat (pos + count.toNat) with hover | hwithin
    · -- the loop does not end
      obtain ⟨fuel, s, hloop, -⟩ := hholes
      rw [hread _ _ rfl, readLoop_hole_none clean_empty hlarge hbefore.le] at hloop
      · exact absurd hloop (by simp)
      · simp only [List.length_nil]
        omega
    · -- the last page is not read
      obtain ⟨fuel, s, hloop, -⟩ := hexact (strictFile iSize) (fun _ => 0) (fun _ => none)
        (fun _ => plenty) rfl rfl (strictFile_reads iSize) (consistent_empty _ _)
        fun _ => plenty_memory
      have hlength' : (strictFile iSize).length = iSize.toNat := rfl
      rw [hread _ _ rfl, hlength', Nat.min_eq_left (by omega)] at hloop
      refine readLoop_strict_ne clean_empty hlarge rfl ?_ ?_ ?_ hloop
      · simp only [List.length_nil]
        omega
      · simp only [List.length_nil, hlength']
        omega
      · simp only [List.length_nil, hlength']
        omega
  · -- the end of the file is not seen
    obtain ⟨fuel, s, hloop, -⟩ := hholes
    rw [hread _ _ rfl, Nat.sub_eq_zero_of_le hbehind, Nat.min_zero] at hloop
    refine readLoop_hole_ne_zero clean_empty ?_ rfl ?_ hloop
    · omega
    · rw [hsize]
      dsimp only
      omega

/-- `generic_file_read` reads exactly the bytes of the file from its position on, whatever is cached, if and
only if `i_size` is not negative, or the read does not come to the end of the file. -/
theorem generic_file_read_exact_iff (iSize : BitVec 32) (pos : ℕ) (count : ℤ) :
    ReadsExactly iSize pos count ↔
      iSize.toNat < 2 ^ 31 ∨ count ≤ 0 ∨ pos + count.toNat ≤ pageMask iSize.toNat ∨
        2 ^ 64 - 2 ^ 32 + iSize.toNat ≤ pos := by
  constructor
  · intro h
    by_contra hnot
    push Not at hnot
    obtain ⟨hlarge, hcount, hlast, hpos⟩ := hnot
    exact not_readsExactly hlarge hcount hlast hpos h
  · exact readsExactly_of

/-- A file of 2 GiB: a read at its end. -/
theorem not_readsExactly_two_gib :
    ¬ ∀ (iSize : BitVec 32) (pos : ℕ) (count : ℤ), pos < 2 ^ 63 → ReadsExactly iSize pos count := by
  intro h
  exact not_readsExactly (by decide) (by decide) (by decide) (by decide)
    (h 0x80000000#32 0x80000000 1 (by decide))

end Mario.FileRead
