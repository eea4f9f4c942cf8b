import Mario.Fs.ExecArgs
import Mathlib.Data.List.GetD

/-!
# The stack of a new program

The strings of the caller are packed into the argument pages one behind the other, each with its
NUL, and `setup_arg_pages` finds them again by their NULs. Empty strings are left out. A string
that reaches the end of its argument page moves the pointer that `putname` frees: where the rest of
the page is shorter than a page the assertion of `page_free` fails, and where the string fills a
page from its start the next page frame is freed.
-/

namespace Mario.Fs.Exec

open Mario.Lib Mario.Lib.Bytes Mario.Mm Function

/-! ## What the caller passes -/

/-- A string without NUL stands at an address, with its NUL behind it. -/
structure StringAt (m : Bytes) (p : Word) (str : List Byte) : Prop where
  bytes : ∀ k (h : k < str.length), m (off p k) = str[k]
  nul : m (off p str.length) = 0
  nonzero : ∀ c ∈ str, c ≠ 0

/-- The strings of an array of pointers that ends with a null pointer. -/
inductive StringsFrom (m : Bytes) : Word → List (List Byte) → Prop
  | nil {arg : Word} (h : get32 m arg = 0) : StringsFrom m arg []
  | cons {arg : Word} {str : List Byte} {strs : List (List Byte)} (h : get32 m arg ≠ 0)
      (hstr : StringAt m (get32 m arg) str) (hrest : StringsFrom m (off arg 4) strs) :
      StringsFrom m arg (str :: strs)

/-- The strings that are passed; a null pointer passes none. -/
def Passed (m : Bytes) (arg : Word) (strs : List (List Byte)) : Prop :=
  if arg = 0 then strs = [] else StringsFrom m arg strs

/-- The strings that `copy_one_arg` counts. -/
def nonempty (strs : List (List Byte)) : List (List Byte) := strs.filter fun str => str ≠ []

/-- No string fills its argument page: only the first one could begin a page. -/
def NotFilling (strs : List (List Byte)) : Prop :=
  ∀ str ∈ (nonempty strs).head?, str.length ≠ pageSize - 1

instance (strs : List (List Byte)) : Decidable (NotFilling strs) :=
  inferInstanceAs (Decidable (∀ _ ∈ _, _))

/-! ## Reading a string -/

theorem StringAt.cons {mem : Bytes} {p : Word} {rest : List Byte} (hc : mem p ≠ 0)
    (h : StringAt mem (off p 1) rest) : StringAt mem p (mem p :: rest) := by
  refine ⟨?_, ?_, ?_⟩
  · intro k hk
    cases k with
    | zero => rw [off_zero, List.getElem_cons_zero]
    | succ k =>
      have hbyte := h.bytes k (by simpa using hk)
      rw [off_off, Nat.add_comm 1 k] at hbyte
      exact hbyte
  · have hbyte := h.nul
    rw [off_off, Nat.add_comm 1] at hbyte
    exact hbyte
  · intro d hd
    rcases List.mem_cons.mp hd with rfl | hd
    · exact hc
    · exact h.nonzero d hd

theorem StringAt.empty {mem : Bytes} {p : Word} (h : mem p = 0) : StringAt mem p [] where
  bytes k hk := absurd hk (Nat.not_lt_zero k)
  nul := by
    rw [List.length_nil, off_zero]
    exact h
  nonzero c hc := by cases hc

theorem readName_spec {mem : Bytes} {n : ℕ} {c : Byte} {p : Word} {str : List Byte}
    (h : readName mem n c p = some str) : ∃ rest, str = c :: rest ∧ StringAt mem p rest ∧ str.length ≤ n := by
  induction n generalizing c p str with
  | zero => cases h
  | succ n ih =>
    rw [readName] at h
    split_ifs at h with hnul
    · obtain rfl : [c] = str := Option.some.inj h
      exact ⟨[], rfl, StringAt.empty hnul, Nat.succ_le_succ (Nat.zero_le n)⟩
    · obtain ⟨tail, htail, rfl⟩ := Option.map_eq_some_iff.mp h
      obtain ⟨rest, rfl, hrest, hlen⟩ := ih htail
      exact ⟨_, rfl, hrest.cons hnul, Nat.succ_le_succ hlen⟩

theorem Frames.alloc_spec {m m' : Frames} {g : ℕ} (h : m.alloc = (some g, m')) :
    m.used g = false ∧ m'.data = m.data ∧ m'.used = update m.used g true ∧ m'.count = m.count := by
  unfold Frames.alloc at h
  split at h
  · cases h
  · cases h
  · split_ifs at h with hused
    · cases h
    · cases h
      exact ⟨Bool.eq_false_iff.mpr hused, rfl, rfl, rfl⟩

theorem getMaxFilename_error {u : UserSpace} {p : Word} {e : ℤ} (h : getMaxFilename u p = .error e) : e = -efault := by
  unfold getMaxFilename at h
  split_ifs at h
  split at h
  · cases h
    rfl
  · split_ifs at h
    cases h
    rfl

theorem getMaxFilename_le {u : UserSpace} {p : Word} {i : ℕ} (h : getMaxFilename u p = .ok i) : i ≤ pageSize := by
  unfold getMaxFilename at h
  split_ifs at h
  · cases h
    exact Nat.zero_le _
  · split at h
    · cases h
    · split_ifs at h with hbad hlong hnext
      · cases h
        exact Nat.zero_le _
      · cases h
        exact Nat.zero_le _
      · cases h
        exact Nat.le_of_not_lt hlong

theorem getname_ok {u : UserSpace} {p : Word} {m m' : Frames} {g : ℕ} {str : List Byte}
    (h : getname u p m = (.ok (g, str), m')) :
    StringAt u.mem p str ∧ str ≠ [] ∧ str.length ≤ pageSize - 1 ∧
      ∃ m₁, m.alloc = (some g, m₁) ∧ m' = m₁.putString g str := by
  unfold getname at h
  split at h
  · cases h
  · rename_i i hmax
    by_cases hnul : u.mem p = 0
    · rw [if_pos hnul] at h
      cases h
    · rw [if_neg hnul] at h
      split at h
      · cases h
      · rename_i g' m₁ halloc
        dsimp only at h
        split at h
        · rename_i str' hread
          cases h
          obtain ⟨rest, rfl, hrest, hlen⟩ := readName_spec hread
          refine ⟨hrest.cons hnul, List.cons_ne_nil _ _, ?_, m₁, halloc, rfl⟩
          refine hlen.trans (Nat.sub_le_sub_right ?_ 1)
          split_ifs with hzero
          · exact le_rfl
          · exact getMaxFilename_le hmax
        · cases h

theorem getname_enoent {u : UserSpace} {p : Word} {m m' : Frames}
    (h : getname u p m = (.error (-enoent), m')) : u.mem p = 0 ∧ m' = m := by
  unfold getname at h
  split at h
  · rename_i e hmax
    rw [getMaxFilename_error hmax] at h
    cases h
  · by_cases hnul : u.mem p = 0
    · rw [if_pos hnul] at h
      cases h
      exact ⟨hnul, rfl⟩
    · rw [if_neg hnul] at h
      split at h
      · cases h
      · dsimp only at h
        split at h
        · cases h
        · split_ifs at h <;> cases h

/-! ## Packing the strings -/

/-- The strings one behind the other, each with its NUL. -/
def pack (strs : List (List Byte)) : List Byte := strs.flatMap (· ++ [0])

theorem pack_append (strs strs' : List (List Byte)) : pack (strs ++ strs') = pack strs ++ pack strs' :=
  List.flatMap_append

theorem pack_singleton (str : List Byte) : pack [str] = str ++ [0] := by
  simp [pack]

theorem pack_cons (str : List Byte) (strs : List (List Byte)) : pack (str :: strs) = str ++ 0 :: pack strs := by
  simp [pack]

theorem eq_nil_of_pack {strs : List (List Byte)} (h : (pack strs).length = 0) : strs = [] := by
  cases strs with
  | nil => rfl
  | cons str strs =>
    rw [pack_cons, List.length_append, List.length_cons] at h
    omega

/-- All strings so far are in the first argument page, and every name has been freed. -/
structure Packed (g₀ : ℕ) (strs : List (List Byte)) (x : Args) : Prop where
  page : x.argPage 0 = some g₀
  argP : x.argP = (pack strs).length
  room : x.argP < pageSize
  bytes : ∀ k < pageSize, x.frames.data g₀ k = (pack strs).getD k 0
  used : x.frames.used g₀ = true
  names : ∀ n ∈ x.names, n.2 = n.1 * pageSize
  nonzero : ∀ str ∈ strs, ∀ c ∈ str, c ≠ 0

theorem pageMask_add_pageSize {a : ℕ} (h : a < pageSize) : pageMask (a + pageSize) = pageSize := by
  unfold pageMask
  unfold pageSize at *
  omega

/-- A string that stays within the page is put behind the others. -/
theorem Packed.copyString {g₀ g tmp : ℕ} {strs : List (List Byte)} {str : List Byte} {x x' : Args}
    {e : Option ℤ} (h : Packed g₀ strs x)
    (hdata : ∀ k ≤ str.length, x.frames.data g k = str.getD k 0) (hstr : ∀ c ∈ str, c ≠ 0)
    (hshort : x.argP + (str.length + 1) < pageSize) (hcopy : Exec.copyString g str x = (e, tmp, x')) :
    e = none ∧ tmp = g * pageSize ∧ Packed g₀ (strs ++ [str]) x' := by
  have hmod : x.argP % pageSize = x.argP := Nat.mod_eq_of_lt h.room
  have hdiv : x.argP / pageSize = 0 := Nat.div_eq_of_lt h.room
  unfold Exec.copyString at hcopy
  simp only [hmod, hdiv, h.page, Option.getD_some, pageMask_add_pageSize h.room] at hcopy
  rw [if_neg (by omega)] at hcopy
  obtain ⟨rfl, rfl, rfl⟩ := by simpa only [Prod.mk.injEq] using hcopy
  refine ⟨rfl, rfl, h.page, ?_, hshort, ?_, h.used, h.names, ?_⟩
  · simp only [h.argP, pack_append, pack_singleton, List.length_append, List.length_cons, List.length_nil]
  · intro k hk
    have hbytes := h.bytes k hk
    simp only [Frames.memcpy, update_self, pack_append, pack_singleton]
    rw [h.argP]
    by_cases hlow : k < (pack strs).length
    · rw [if_neg (by omega), hbytes, List.getD_append _ _ _ _ hlow]
    · rw [List.getD_append_right _ _ _ _ (by omega)]
      by_cases hhigh : k < (pack strs).length + (str.length + 1)
      · rw [if_pos (by omega), Nat.zero_add, hdata _ (by omega)]
        by_cases hlast : k - (pack strs).length < str.length
        · rw [List.getD_append _ _ _ _ hlast]
        · rw [List.getD_append_right _ _ _ _ (by omega), List.getD_eq_default _ _ (by omega)]
          simp [show k - (pack strs).length - str.length = 0 by omega]
      · rw [if_neg (by omega), hbytes, List.getD_eq_default _ _ (by omega), List.getD_eq_default _ _ (by simp; omega)]
  · intro s hs
    rcases List.mem_append.mp hs with hs | hs
    · exact h.nonzero s hs
    · rw [List.mem_singleton.mp hs]
      exact hstr

theorem copyString_names {g tmp : ℕ} {str : List Byte} {x x' : Args} {e : Option ℤ}
    (hcopy : copyString g str x = (e, tmp, x')) : x'.names = x.names := by
  unfold copyString at hcopy
  dsimp only at hcopy
  split_ifs at hcopy
  · simp only [Prod.mk.injEq] at hcopy
    rw [← hcopy.2.2]
  · split at hcopy
    · simp only [Prod.mk.injEq] at hcopy
      rw [← hcopy.2.2]
    · simp only [Prod.mk.injEq] at hcopy
      rw [← hcopy.2.2]
  · simp only [Prod.mk.injEq] at hcopy
    rw [← hcopy.2.2]

/-- Where a string reaches the end of its page, `putname` is given an address within the page or,
when the string fills the page, the next page. -/
theorem Packed.copyString_tmp {g₀ g tmp : ℕ} {strs : List (List Byte)} {str : List Byte}
    {x x' : Args} {e : Option ℤ} (h : Packed g₀ strs x) (hlong : pageSize ≤ x.argP + (str.length + 1))
    (hcopy : Exec.copyString g str x = (e, tmp, x')) : tmp = g * pageSize + (pageSize - x.argP) := by
  have hmod : x.argP % pageSize = x.argP := Nat.mod_eq_of_lt h.room
  unfold Exec.copyString at hcopy
  simp only [hmod, pageMask_add_pageSize h.room] at hcopy
  rw [if_pos hlong] at hcopy
  split_ifs at hcopy
  · simp only [Prod.mk.injEq] at hcopy
    exact hcopy.2.1.symm
  · split at hcopy
    · simp only [Prod.mk.injEq] at hcopy
      exact hcopy.2.1.symm
    · simp only [Prod.mk.injEq] at hcopy
      exact hcopy.2.1.symm

/-- No string of the list fills the first page. -/
def FirstShort (strs : List (List Byte)) : Prop := ∀ str ∈ strs.head?, str.length ≠ pageSize - 1

theorem FirstShort.of_append {strs strs' : List (List Byte)} (h : FirstShort (strs ++ strs')) : FirstShort strs := by
  intro str hstr
  refine h str ?_
  rw [List.head?_append, Option.mem_def.mp hstr]
  rfl

theorem Packed.putname {g₀ g : ℕ} {strs : List (List Byte)} {x x' : Args} (h : Packed g₀ strs x)
    (hne : g ≠ g₀) (hput : Exec.putname g (g * pageSize) x = some x') : Packed g₀ strs x' := by
  obtain ⟨m, hfree, rfl⟩ := Option.map_eq_some_iff.mp hput
  rw [Frames.pageFree, if_pos (Nat.mul_mod_left g pageSize)] at hfree
  cases hfree
  refine ⟨h.page, h.argP, h.room, h.bytes, ?_, ?_, h.nonzero⟩
  · rw [Nat.mul_div_cancel g (by decide)]
    simp only [Frames.free, update_of_ne hne.symm, h.used]
  · intro n hn
    rcases List.mem_append.mp hn with hn | hn
    · exact h.names n hn
    · rw [List.mem_singleton.mp hn]

theorem packed_nil {g₀ : ℕ} {m m' : Frames} (h : m.getZeroPage = (some g₀, m')) :
    Packed g₀ [] ⟨m', update (fun _ => none) 0 (some g₀), 0, []⟩ := by
  unfold Frames.getZeroPage at h
  split at h
  · cases h
  · rename_i g m₁ halloc
    obtain ⟨-, hdata, hused, -⟩ := Frames.alloc_spec halloc
    cases h
    have hpos : 0 < pageSize := by decide
    refine ⟨?_, rfl, hpos, ?_, ?_, fun n hn => (by cases hn), fun s hs => (by cases hs)⟩
    · simp only [update_self]
    · intro k _
      simp only [update_self]
      rfl
    · simp only [hused, update_self]

/-- The frames that `getname` leaves: the new one holds the string. -/
theorem Packed.getname {g₀ g : ℕ} {strs : List (List Byte)} {x : Args} {m : Frames}
    (h : Packed g₀ strs x) (halloc : x.frames.alloc = (some g, m)) (str : List Byte) :
    g ≠ g₀ ∧ Packed g₀ strs { x with frames := m.putString g str } := by
  obtain ⟨hfree, hdata, hused, -⟩ := Frames.alloc_spec halloc
  have hne : g ≠ g₀ := by
    rintro rfl
    rw [h.used] at hfree
    cases hfree
  refine ⟨hne, h.page, h.argP, h.room, ?_, ?_, h.names, h.nonzero⟩
  · intro k hk
    simp only [Frames.putString, update_of_ne hne.symm, hdata]
    exact h.bytes k hk
  · simp only [Frames.putString, hused, update_of_ne hne.symm, h.used]

theorem copyOneArg_ok {u : UserSpace} {p : Word} {x x' : Args} {counted : Bool}
    (hcopy : copyOneArg u p x = some (.ok counted, x')) :
    ∃ str, StringAt u.mem p str ∧ (counted = true ↔ str ≠ []) ∧
      x'.names.length = x.names.length + (nonempty [str]).length ∧
      ∀ g₀ strs, Packed g₀ strs x → FirstShort (strs ++ [str]) → Packed g₀ (strs ++ nonempty [str]) x' := by
  unfold copyOneArg at hcopy
  split at hcopy
  · rename_i e m hname
    simp only [Option.some.injEq, Prod.mk.injEq] at hcopy
    obtain ⟨hres, rfl⟩ := hcopy
    split_ifs at hres with henoent
    · subst henoent
      cases hres
      obtain ⟨hnul, rfl⟩ := getname_enoent hname
      refine ⟨[], StringAt.empty hnul, by simp, rfl, fun g₀ strs h _ => ?_⟩
      simpa [nonempty] using h
  · rename_i g str m hname
    obtain ⟨hstr, hne, hlen, m₁, halloc, rfl⟩ := getname_ok hname
    have hnonempty : nonempty [str] = [str] := by simp [nonempty, hne]
    obtain ⟨x₂, hput, hx₂⟩ := Option.map_eq_some_iff.mp hcopy
    rcases hcopied : copyString g str { x with frames := m₁.putString g str } with ⟨e, tmp, x₁⟩
    rw [hcopied] at hput hx₂
    obtain ⟨⟨rfl, rfl⟩, rfl⟩ : (counted = true ∧ e = none) ∧ x₂ = x' := by
      cases e with
      | none =>
        cases hx₂
        exact ⟨⟨rfl, rfl⟩, rfl⟩
      | some e => cases hx₂
    refine ⟨str, hstr, by simp [hne], ?_, fun g₀ strs h hshort => ?_⟩
    · obtain ⟨m₂, -, rfl⟩ := Option.map_eq_some_iff.mp hput
      rw [hnonempty, List.length_append, copyString_names hcopied]
      rfl
    obtain ⟨hframe, hnamed⟩ := h.getname halloc str
    rw [hnonempty]
    have hdata : ∀ k ≤ str.length, (m₁.putString g str).data g k = str.getD k 0 := by
      intro k hk
      simp only [Frames.putString, update_self, if_pos hk]
    by_cases hroom : x.argP + (str.length + 1) < pageSize
    · obtain ⟨-, rfl, hpacked⟩ := hnamed.copyString hdata hstr.nonzero hroom hcopied
      exact hpacked.putname hframe hput
    · -- the assertion of `page_free` holds only if the string begins its page
      have hlong : pageSize ≤ x.argP + (str.length + 1) := Nat.le_of_not_lt hroom
      have htmp : tmp = g * pageSize + (pageSize - x.argP) := hnamed.copyString_tmp hlong hcopied
      obtain ⟨m₂, hfree, -⟩ := Option.map_eq_some_iff.mp hput
      rw [Frames.pageFree] at hfree
      split_ifs at hfree with haligned
      rw [htmp, Nat.mul_add_mod_self_right] at haligned
      have hlow := h.room
      have hzero : x.argP = 0 := by
        by_contra hpos
        rw [Nat.mod_eq_of_lt (by omega)] at haligned
        omega
      have hnil : strs = [] := eq_nil_of_pack (h.argP ▸ hzero)
      subst hnil
      have hfirst := hshort str rfl
      omega

theorem nonempty_append (strs strs' : List (List Byte)) :
    nonempty (strs ++ strs') = nonempty strs ++ nonempty strs' := List.filter_append ..

theorem copyArgsLoop_ok {u : UserSpace} {fuel : ℕ} {arg : Word} {n n' : ℕ} {x x' : Args}
    (hcopy : copyArgsLoop u fuel arg n x = some (.ok n', x')) :
    ∃ strs', StringsFrom u.mem arg strs' ∧ n' = n + (nonempty strs').length ∧
      x'.names.length = x.names.length + (nonempty strs').length ∧
      ∀ g₀ strs, Packed g₀ strs x → FirstShort (strs ++ nonempty strs') → Packed g₀ (strs ++ nonempty strs') x' := by
  induction fuel generalizing arg n x with
  | zero => cases hcopy
  | succ fuel ih =>
    rw [copyArgsLoop] at hcopy
    split_ifs at hcopy with hverify hnull
    · cases hcopy
      refine ⟨[], StringsFrom.nil hnull, rfl, rfl, fun g₀ strs h _ => ?_⟩
      simpa [nonempty] using h
    · obtain ⟨⟨r, x₁⟩, hone, hrest⟩ := Option.bind_eq_some_iff.mp hcopy
      cases r with
      | error e => cases hrest
      | ok counted =>
        obtain ⟨str, hstr, hcounted, hnames, hpack⟩ := copyOneArg_ok hone
        obtain ⟨strs', hstrs', rfl, hnames', hpack'⟩ := ih hrest
        have hsplit : nonempty (str :: strs') = nonempty [str] ++ nonempty strs' :=
          nonempty_append [str] strs'
        refine ⟨str :: strs', StringsFrom.cons hnull hstr hstrs', ?_, ?_, fun g₀ strs h hshort => ?_⟩
        · rw [hsplit, List.length_append]
          by_cases hempty : str = []
          · rw [if_neg (by simp [hcounted, hempty])]
            simp [nonempty, hempty]
          · rw [if_pos (hcounted.mpr hempty)]
            simp only [nonempty, hempty, ne_eq, not_false_eq_true, decide_true,
              List.filter_cons_of_pos, List.filter_nil, List.length_cons, List.length_nil]
            omega
        · rw [hsplit, List.length_append, hnames', hnames, Nat.add_assoc]
        · rw [hsplit, ← List.append_assoc] at hshort ⊢
          refine hpack' g₀ _ (hpack g₀ strs h ?_) hshort
          by_cases hempty : str = []
          · subst hempty
            intro s hs
            cases strs with
            | nil =>
              cases hs
              decide
            | cons a strs => exact hshort s hs
          · have hone : nonempty [str] = [str] := by simp [nonempty, hempty]
            rw [hone] at hshort
            exact hshort.of_append
    · cases hcopy

theorem copyArgs_ok {u : UserSpace} {fuel : ℕ} {arg : Word} {n : ℕ} {x x' : Args}
    (hcopy : copyArgs u fuel arg x = some (.ok n, x')) :
    ∃ strs', Passed u.mem arg strs' ∧ n = (nonempty strs').length ∧
      x'.names.length = x.names.length + (nonempty strs').length ∧
      ∀ g₀ strs, Packed g₀ strs x → FirstShort (strs ++ nonempty strs') → Packed g₀ (strs ++ nonempty strs') x' := by
  unfold copyArgs at hcopy
  unfold Passed
  split_ifs at hcopy ⊢ with hnull
  · cases hcopy
    refine ⟨[], rfl, rfl, rfl, fun g₀ strs h _ => ?_⟩
    simpa [nonempty] using h
  · obtain ⟨strs', hstrs', rfl, hnames, hpack⟩ := copyArgsLoop_ok hcopy
    exact ⟨strs', hstrs', Nat.zero_add _, hnames, hpack⟩

theorem prepArgs_ok {u : UserSpace} {fuel argc envc : ℕ} {argv envp : Word} {m : Frames} {x : Args}
    (hprep : prepArgs u fuel argv envp m = some (.ok (argc, envc), x)) :
    ∃ args envs, Passed u.mem argv args ∧ Passed u.mem envp envs ∧
      argc = (nonempty args).length ∧ envc = (nonempty envs).length ∧
      x.names.length = argc + envc ∧
      (NotFilling (args ++ envs) → ∃ g₀, Packed g₀ (nonempty args ++ nonempty envs) x) := by
  unfold prepArgs at hprep
  split at hprep
  · cases hprep
  · rename_i g₀ m₀ hzero
    dsimp only at hprep
    obtain ⟨⟨r, x₁⟩, hargs, hrest⟩ := Option.bind_eq_some_iff.mp hprep
    cases r with
    | error e => cases hrest
    | ok n =>
      obtain ⟨⟨r, x₂⟩, henvs, hlast⟩ := Option.map_eq_some_iff.mp hrest
      cases r with
      | error e => cases hlast
      | ok n' =>
        cases hlast
        obtain ⟨args, hpassed, rfl, hnames, hpack⟩ := copyArgs_ok hargs
        obtain ⟨envs, hpassed', rfl, hnames', hpack'⟩ := copyArgs_ok henvs
        refine ⟨args, envs, hpassed, hpassed', rfl, rfl, ?_, fun hshort => ⟨g₀, ?_⟩⟩
        · rw [hnames', hnames, List.length_nil, Nat.zero_add]
        have hfirst : FirstShort (nonempty args ++ nonempty envs) := by
          rw [← nonempty_append]
          exact hshort
        refine hpack' g₀ _ (hpack g₀ [] ?_ hfirst.of_append) hfirst
        exact packed_nil hzero

/-! ## Finding the strings -/

theorem StringAt.tail {m : Bytes} {p : Word} {c : Byte} {str : List Byte}
    (h : StringAt m p (c :: str)) : m p ≠ 0 ∧ StringAt m (off p 1) str := by
  refine ⟨?_, ?_, ?_, fun d hd => h.nonzero d (List.mem_cons_of_mem c hd)⟩
  · have hbyte := h.bytes 0 (Nat.zero_lt_succ _)
    rw [off_zero] at hbyte
    rw [hbyte]
    exact h.nonzero c List.mem_cons_self
  · intro k hk
    rw [off_off, Nat.add_comm 1 k]
    exact h.bytes (k + 1) (Nat.succ_lt_succ hk)
  · rw [off_off, Nat.add_comm 1]
    exact h.nul

theorem StringAt.unique {m : Bytes} {p : Word} {str str' : List Byte} (h : StringAt m p str)
    (h' : StringAt m p str') : str = str' := by
  induction str generalizing p str' with
  | nil =>
    cases str' with
    | nil => rfl
    | cons c str' =>
      have hnul := h.nul
      rw [List.length_nil, off_zero] at hnul
      exact absurd hnul h'.tail.1
  | cons c str ih =>
    cases str' with
    | nil =>
      have hnul := h'.nul
      rw [List.length_nil, off_zero] at hnul
      exact absurd hnul h.tail.1
    | cons d str' =>
      have hc : m (off p 0) = c := h.bytes 0 (Nat.zero_lt_succ _)
      have hd : m (off p 0) = d := h'.bytes 0 (Nat.zero_lt_succ _)
      rw [ih h.tail.2 h'.tail.2, ← hc, ← hd]

theorem StringsFrom.unique {m : Bytes} {arg : Word} {strs strs' : List (List Byte)}
    (h : StringsFrom m arg strs) (h' : StringsFrom m arg strs') : strs = strs' := by
  induction h generalizing strs' with
  | nil hnull =>
    cases h' with
    | nil => rfl
    | cons hne => exact absurd hnull hne
  | cons hne hstr _ ih =>
    cases h' with
    | nil hnull => exact absurd hnull hne
    | cons _ hstr' hrest' => rw [hstr.unique hstr', ih hrest']

theorem Passed.unique {m : Bytes} {arg : Word} {strs strs' : List (List Byte)}
    (h : Passed m arg strs) (h' : Passed m arg strs') : strs = strs' := by
  unfold Passed at h h'
  split_ifs at h h'
  · rw [h, h']
  · exact h.unique h'

theorem skipString_eq {m : Bytes} {str : List Byte} {fuel : ℕ} {p : Word} (h : StringAt m p str)
    (hfuel : str.length < fuel) : skipString m fuel p = off p (str.length + 1) := by
  induction str generalizing fuel p with
  | nil =>
    obtain ⟨fuel, rfl⟩ := Nat.exists_eq_add_of_lt hfuel
    have hnul := h.nul
    rw [List.length_nil, off_zero] at hnul
    rw [skipString, if_pos hnul, List.length_nil]
  | cons c str ih =>
    obtain ⟨fuel, rfl⟩ : ∃ n, fuel = n + 1 := ⟨fuel - 1, by omega⟩
    obtain ⟨hne, htail⟩ := h.tail
    rw [skipString, if_neg hne, ih htail (Nat.lt_of_succ_lt_succ hfuel), off_off, List.length_cons]
    congr 1
    omega

/-- The addresses of packed strings that begin at an offset. -/
def pointers (a : Word) : ℕ → List (List Byte) → List Word
  | _, [] => []
  | k, str :: strs => off a k :: pointers a (k + (str.length + 1)) strs

theorem length_pointers (a : Word) (k : ℕ) (strs : List (List Byte)) : (pointers a k strs).length = strs.length := by
  induction strs generalizing k with
  | nil => rfl
  | cons str strs ih => rw [pointers, List.length_cons, ih, List.length_cons]

/-- Packed strings stand in memory from an offset on. -/
structure PackedAt (m : Bytes) (a : Word) (k : ℕ) (strs : List (List Byte)) : Prop where
  bytes : ∀ j < (pack strs).length, m (off a (k + j)) = (pack strs).getD j 0
  nonzero : ∀ str ∈ strs, ∀ c ∈ str, c ≠ 0

theorem PackedAt.head {m : Bytes} {a : Word} {k : ℕ} {str : List Byte} {strs : List (List Byte)}
    (h : PackedAt m a k (str :: strs)) : StringAt m (off a k) str := by
  have hbytes := h.bytes
  rw [pack_cons, List.length_append, List.length_cons] at hbytes
  refine ⟨?_, ?_, h.nonzero str List.mem_cons_self⟩
  · intro j hj
    rw [off_off, hbytes j (by omega), List.getD_append _ _ _ _ hj, List.getD_eq_getElem _ _ hj]
  · rw [off_off, hbytes str.length (by omega), List.getD_append_right _ _ _ _ le_rfl, Nat.sub_self]
    rfl

theorem PackedAt.tail {m : Bytes} {a : Word} {k : ℕ} {str : List Byte} {strs : List (List Byte)}
    (h : PackedAt m a k (str :: strs)) : PackedAt m a (k + (str.length + 1)) strs := by
  have hbytes := h.bytes
  rw [pack_cons, List.length_append, List.length_cons] at hbytes
  refine ⟨?_, fun s hs => h.nonzero s (List.mem_cons_of_mem str hs)⟩
  intro j hj
  rw [show k + (str.length + 1) + j = k + (str.length + 1 + j) by omega,
    hbytes _ (by omega), List.getD_append_right _ _ _ _ (by omega),
    show str.length + 1 + j - str.length = j + 1 by omega, List.getD_cons_succ]

theorem PackedAt.congr {m m' : Bytes} {a : Word} {k : ℕ} {strs : List (List Byte)}
    (h : PackedAt m a k strs) (hsame : ∀ j < (pack strs).length, m' (off a (k + j)) = m (off a (k + j))) :
    PackedAt m' a k strs :=
  ⟨fun j hj => (hsame j hj).trans (h.bytes j hj), h.nonzero⟩

theorem PackedAt.of_append {m : Bytes} {a : Word} {k : ℕ} {strs strs' : List (List Byte)}
    (h : PackedAt m a k (strs ++ strs')) : PackedAt m a k strs ∧ PackedAt m a (k + (pack strs).length) strs' := by
  induction strs generalizing k with
  | nil => exact ⟨⟨fun j hj => absurd hj (Nat.not_lt_zero j), fun s hs => by cases hs⟩, h⟩
  | cons str strs ih =>
    obtain ⟨-, hright⟩ := ih h.tail
    refine ⟨⟨?_, fun s hs => h.nonzero s (List.mem_append_left _ hs)⟩, ?_⟩
    · intro j hj
      have hbyte := h.bytes j (by rw [pack_append, List.length_append]; omega)
      rw [hbyte, pack_append, List.getD_append _ _ _ _ hj]
    · rw [pack_cons, List.length_append, List.length_cons]
      rw [show k + (str.length + ((pack strs).length + 1)) =
        k + (str.length + 1) + (pack strs).length by omega]
      exact hright

/-- A loop of `setup_arg_pages` writes the addresses of the strings and a null pointer. -/
theorem pointStrings_eq {a : Word} {strs : List (List Byte)} {m : Bytes} {e k : ℕ}
    (h : PackedAt m a k strs) (hbelow : e + 4 * (strs.length + 1) ≤ k) (hfit : k + (pack strs).length ≤ 2 ^ 32) :
    pointStrings strs.length (off a e) (off a k) m =
      (putWords m (off a e) (pointers a k strs ++ [0]), off a (e + 4 * (strs.length + 1)),
        off a (k + (pack strs).length)) := by
  induction strs generalizing m e k with
  | nil => simp [pointStrings, pointers, putWords, off_off, pack]
  | cons str strs ih =>
    have hpack : (pack (str :: strs)).length = str.length + 1 + (pack strs).length := by
      rw [pack_cons, List.length_append, List.length_cons]
      omega
    rw [List.length_cons] at hbelow
    have hkept : PackedAt (put32 m (off a e) (off a k)) a k (str :: strs) := by
      refine h.congr fun j hj => put32_other m a _ (by omega) (by omega) (by omega)
    have hskip : skipString (put32 m (off a e) (off a k)) wordSize (off a k) =
        off a (k + (str.length + 1)) := by
      rw [skipString_eq hkept.head, off_off]
      rw [show wordSize = 2 ^ 32 from rfl]
      omega
    rw [List.length_cons, pointStrings, hskip, off_off, ih hkept.tail (by omega) (by omega),
      pointers, List.cons_append, putWords, off_off, hpack]
    congr 2
    · congr 1
      omega
    · congr 1
      omega

theorem pointers_spec {m : Bytes} {a : Word} {k : ℕ} {strs : List (List Byte)}
    (h : PackedAt m a k strs) {i : ℕ} (hi : i < strs.length) :
    ∃ o, (pointers a k strs).getD i 0 = off a o ∧ k ≤ o ∧
      o + strs[i].length < k + (pack strs).length ∧ StringAt m (off a o) strs[i] := by
  induction strs generalizing k i with
  | nil => exact absurd hi (Nat.not_lt_zero i)
  | cons str strs ih =>
    have hpack : (pack (str :: strs)).length = str.length + 1 + (pack strs).length := by
      rw [pack_cons, List.length_append, List.length_cons]
      omega
    cases i with
    | zero =>
      refine ⟨k, rfl, le_rfl, ?_, h.head⟩
      rw [hpack, List.getElem_cons_zero]
      omega
    | succ i =>
      obtain ⟨o, ho, hlow, hhigh, hstr⟩ := ih h.tail (Nat.lt_of_succ_lt_succ hi)
      refine ⟨o, ho, by omega, ?_, hstr⟩
      rw [hpack, List.getElem_cons_succ]
      omega

/-- The words that `setup_arg_pages` writes from the stack pointer on. -/
def stackWords (a : Word) (k : ℕ) (args envs : List (List Byte)) (aux : List Word) : List Word :=
  BitVec.ofNat 32 args.length :: ((pointers a k args ++ [0]) ++
    ((pointers a (k + (pack args).length) envs ++ [0]) ++ aux))

theorem length_stackWords (a : Word) (k : ℕ) (args envs : List (List Byte)) (aux : List Word) :
    (stackWords a k args envs aux).length = args.length + envs.length + aux.length + 3 := by
  simp only [stackWords, List.length_cons, List.length_append, length_pointers, List.length_nil]
  omega

theorem writeStack_eq {m : Bytes} (esp : Word) {args envs : List (List Byte)} {aux : List Word}
    {startStack : Word} (hstart : startStack = off esp (4 * getNWord args.length envs.length))
    (hpacked : PackedAt m esp (4 * getNWord args.length envs.length) (args ++ envs))
    (hfit : 4 * getNWord args.length envs.length + (pack (args ++ envs)).length ≤ 2 ^ 32) :
    writeStack args.length envs.length aux startStack m =
      putWords m esp (stackWords esp (4 * getNWord args.length envs.length) args envs aux) := by
  have hesp : startStack - BitVec.ofNat 32 (4 * getNWord args.length envs.length) = esp := by
    rw [hstart]
    unfold off
    exact BitVec.add_sub_cancel ..
  generalize hk : 4 * getNWord args.length envs.length = k at *
  have hwords : k = 4 * (args.length + envs.length + 67) := by
    rw [← hk]
    unfold getNWord atVectorSize
    omega
  rw [pack_append, List.length_append] at hfit
  unfold writeStack
  rw [hk, hesp, hstart]
  dsimp only
  have hkept : PackedAt (put32 m esp (BitVec.ofNat 32 args.length)) esp k (args ++ envs) := by
    refine hpacked.congr fun j hj => ?_
    rw [pack_append, List.length_append] at hj
    have hother := put32_other m esp (BitVec.ofNat 32 args.length) (d := k + j) (e := 0) (by omega)
      (by omega) (by omega)
    rw [off_zero] at hother
    exact hother
  obtain ⟨hargs, henvs⟩ := hkept.of_append
  rw [pointStrings_eq hargs (by omega) (by omega)]
  dsimp only
  have henvs' : PackedAt (putWords (put32 m esp (BitVec.ofNat 32 args.length)) (off esp 4)
      (pointers esp k args ++ [0])) esp (k + (pack args).length) envs := by
    refine henvs.congr fun j hj => putWords_other _ esp _ (by omega) ?_ ?_
    · rw [List.length_append, length_pointers, List.length_singleton]
      omega
    · rw [List.length_append, length_pointers, List.length_singleton]
      omega
  rw [pointStrings_eq henvs' (by omega) (by omega)]
  dsimp only
  rw [stackWords, putWords, putWords_append _ _ (pointers esp k args ++ [0]) (_ ++ aux),
    putWords_append _ _ _ aux, off_off, off_off]
  simp only [List.length_append, length_pointers, List.length_singleton]

/-! ## The new stack -/

/-- A pointer to a string within the argument pages. -/
def Points (m : Bytes) (lo : ℕ) (p : Word) (str : List Byte) : Prop :=
  StringAt m p str ∧ lo ≤ p.toNat ∧ p.toNat + str.length < kernelBase

/-- The stack at `esp` holds `argc`, `argv` and `envp` with their strings, which lie from `lo` on. -/
structure Stacked (m : Bytes) (esp : Word) (lo : ℕ) (args envs : List (List Byte)) : Prop where
  argc : (get32 m esp).toNat = args.length
  argv : ∀ i (h : i < args.length), Points m lo (get32 m (off esp (4 * (1 + i)))) args[i]
  argvEnd : get32 m (off esp (4 * (1 + args.length))) = 0
  envp : ∀ j (h : j < envs.length),
    Points m lo (get32 m (off esp (4 * (args.length + 2 + j)))) envs[j]
  envpEnd : get32 m (off esp (4 * (args.length + 2 + envs.length))) = 0

theorem stacked_of_words {m : Bytes} {esp : Word} {k lo : ℕ} {args envs : List (List Byte)}
    {aux : List Word} (hpacked : PackedAt m esp k (args ++ envs))
    (hk : 4 * (args.length + envs.length + aux.length + 3) ≤ k)
    (hlo : esp.toNat + k = lo) (hhi : lo + (pack (args ++ envs)).length ≤ kernelBase) :
    Stacked (putWords m esp (stackWords esp k args envs aux)) esp lo args envs := by
  have hbase : kernelBase = 2 ^ 31 := rfl
  have hsplit := pack_append args envs
  have hlen : (pack (args ++ envs)).length = (pack args).length + (pack envs).length := by
    rw [hsplit, List.length_append]
  have hcount := length_stackWords esp k args envs aux
  set words := stackWords esp k args envs aux with hwords
  have hkept : PackedAt (putWords m esp words) esp k (args ++ envs) := by
    refine hpacked.congr fun j hj => ?_
    have hother := putWords_other m esp words (d := k + j) (e := 0) (by omega) (by omega) (by omega)
    rw [off_zero] at hother
    exact hother
  obtain ⟨hargs, henvs⟩ := hkept.of_append
  have hword : ∀ i < words.length,
      get32 (putWords m esp words) (off esp (4 * i)) = words.getD i 0 := by
    intro i hi
    have hget := get32_putWords (a := esp) (e := 0) m (by omega) hi
    rw [off_zero, Nat.zero_add] at hget
    rw [hget, List.getD_eq_getElem _ _ hi]
  have hpoint : ∀ o str, k ≤ o → o + str.length < k + (pack (args ++ envs)).length →
      StringAt (putWords m esp words) (off esp o) str →
      Points (putWords m esp words) lo (off esp o) str := by
    intro o str hlow hhigh hstr
    have hnat : (off esp o).toNat = esp.toNat + o := by
      unfold off
      rw [BitVec.toNat_add, BitVec.toNat_ofNat, Nat.mod_eq_of_lt (show o < 2 ^ 32 by omega),
        Nat.mod_eq_of_lt (by omega)]
    exact ⟨hstr, by omega, by omega⟩
  -- where the words of the three parts stand in the list
  have hargv : ∀ i < args.length, words.getD (1 + i) 0 = (pointers esp k args).getD i 0 := by
    intro i hi
    rw [hwords, stackWords, Nat.add_comm 1 i, List.getD_cons_succ,
      List.getD_append _ _ _ _ (by simp [length_pointers]; omega),
      List.getD_append _ _ _ _ (by rw [length_pointers]; exact hi)]
  have hargvEnd : words.getD (1 + args.length) 0 = 0 := by
    rw [hwords, stackWords, Nat.add_comm 1, List.getD_cons_succ,
      List.getD_append _ _ _ _ (by simp [length_pointers]),
      List.getD_append_right _ _ _ _ (by rw [length_pointers]), length_pointers, Nat.sub_self]
    rfl
  have henvp : ∀ j < envs.length, words.getD (args.length + 2 + j) 0 =
      (pointers esp (k + (pack args).length) envs).getD j 0 := by
    intro j hj
    rw [hwords, stackWords, show args.length + 2 + j = args.length + 1 + j + 1 by omega,
      List.getD_cons_succ, List.getD_append_right _ _ _ _ (by simp [length_pointers]),
      List.length_append, length_pointers, List.length_singleton,
      show args.length + 1 + j - (args.length + 1) = j by omega,
      List.getD_append _ _ _ _ (by simp [length_pointers]; omega),
      List.getD_append _ _ _ _ (by rw [length_pointers]; exact hj)]
  have henvpEnd : words.getD (args.length + 2 + envs.length) 0 = 0 := by
    rw [hwords, stackWords, show args.length + 2 + envs.length = args.length + 1 + envs.length + 1 by
      omega, List.getD_cons_succ, List.getD_append_right _ _ _ _ (by simp [length_pointers]),
      List.length_append, length_pointers, List.length_singleton,
      show args.length + 1 + envs.length - (args.length + 1) = envs.length by omega,
      List.getD_append _ _ _ _ (by simp [length_pointers]),
      List.getD_append_right _ _ _ _ (by rw [length_pointers]), length_pointers, Nat.sub_self]
    rfl
  refine ⟨?_, ?_, ?_, ?_, ?_⟩
  · have hargc := hword 0 (by omega)
    rw [Nat.mul_zero, off_zero] at hargc
    rw [hargc, hwords, stackWords, List.getD_cons_zero, BitVec.toNat_ofNat]
    exact Nat.mod_eq_of_lt (by omega)
  · intro i hi
    obtain ⟨o, ho, hlow, hhigh, hstr⟩ := pointers_spec hargs hi
    rw [hword _ (by omega), hargv i hi, ho]
    exact hpoint o _ hlow (by omega) hstr
  · rw [hword _ (by omega), hargvEnd]
  · intro j hj
    obtain ⟨o, ho, hlow, hhigh, hstr⟩ := pointers_spec henvs hj
    rw [hword _ (by omega), henvp j hj, ho]
    exact hpoint o _ (by omega) (by omega) hstr
  · rw [hword _ (by omega), henvpEnd]

theorem mapOver_eq {areas : List Vma} {addr len : ℕ} {kzalloc : Bool} (m : Bytes)
    (h : ∀ v ∈ areas, v.vmEnd ≤ addr) : mapOver areas addr len kzalloc m = m := by
  unfold mapOver
  rw [if_neg]
  rintro ⟨-, hany⟩
  obtain ⟨v, hv, hover⟩ := List.any_eq_true.mp hany
  have hbelow := h v hv
  simp only [Bool.and_eq_true, decide_eq_true_eq] at hover
  omega

theorem Packed.image {g₀ : ℕ} {strs : List (List Byte)} {x : Args} (h : Packed g₀ strs x) {k : ℕ}
    {esp : Word} (hesp : esp.toNat + k = x.startStack) : PackedAt x.image esp k strs := by
  have hbase : kernelBase = 2 ^ 31 := rfl
  have hpage : pageSize = 4096 := rfl
  have hroom := h.room
  have hnr : x.nrPage = 1 := by
    rw [Args.nrPage, Nat.div_eq_of_lt h.room]
  have hstart : x.startStack = kernelBase - pageSize := by
    rw [Args.startStack, hnr, Nat.one_mul]
  refine ⟨?_, h.nonzero⟩
  intro j hj
  have hj' : j < pageSize := by
    rw [← h.argP] at hj
    exact hj.trans h.room
  have hnat : (off esp (k + j)).toNat = x.startStack + j := by
    unfold off
    rw [BitVec.toNat_add, BitVec.toNat_ofNat, Nat.mod_eq_of_lt (show k + j < 2 ^ 32 by omega),
      Nat.mod_eq_of_lt (by omega)]
    omega
  rw [Args.image, hnat, if_pos (by omega), Nat.add_sub_cancel_left, Args.byte,
    Nat.div_eq_of_lt hj', Nat.mod_eq_of_lt hj', h.page, Option.getD_some, h.bytes j hj']

/-- When `execve` succeeds, strings have been passed, and the new stack holds those of them that are
not empty with the arrays of the pointers to them, and every name page has been given back; unless a
string fills an argument page, or an area of the program reaches into the stack. -/
theorem execArgs_stacked (u : UserSpace) (fuel : ℕ) (argv envp : Word) (e : Environment)
    (r : NewStack) (h : execArgs u fuel argv envp e = some r) :
    (∃ args envs, Passed u.mem argv args ∧ Passed u.mem envp envs) ∧
    ∀ args envs, Passed u.mem argv args → Passed u.mem envp envs → NotFilling (args ++ envs) →
      (∀ v ∈ e.areas, v.vmEnd ≤ kernelBase - 2 * pageSize) →
      Stacked r.mem r.esp r.args.startStack (nonempty args) (nonempty envs) ∧
      r.args.names.length = (nonempty args).length + (nonempty envs).length ∧
      ∀ n ∈ r.args.names, n.2 = n.1 * pageSize := by
  obtain ⟨⟨res, x⟩, hprep, hrest⟩ := Option.bind_eq_some_iff.mp h
  cases res with
  | error e => cases hrest
  | ok counts =>
    obtain ⟨argc, envc⟩ := counts
    obtain ⟨args, envs, hargs, henvs, rfl, rfl, hnames, hpacked⟩ := prepArgs_ok hprep
    dsimp only at hrest
    split_ifs at hrest with hwords
    cases hrest
    refine ⟨⟨args, envs, hargs, henvs⟩, fun args' envs' hargs' henvs' hshort hareas => ?_⟩
    obtain rfl := hargs.unique hargs'
    obtain rfl := henvs.unique henvs'
    obtain ⟨g₀, hpacked⟩ := hpacked hshort
    refine ⟨?_, hnames, hpacked.names⟩
    have hbase : kernelBase = 2 ^ 31 := rfl
    have hpage : pageSize = 4096 := rfl
    have hroom := hpacked.room
    have hstart : x.startStack = kernelBase - pageSize := by
      rw [Args.startStack, Args.nrPage, Nat.div_eq_of_lt hpacked.room, Nat.zero_add, Nat.one_mul]
    set nw := getNWord (nonempty args).length (nonempty envs).length
    have hesp : (BitVec.ofNat 32 (x.startStack - 4 * nw)).toNat + 4 * nw = x.startStack := by
      rw [BitVec.toNat_ofNat, Nat.mod_eq_of_lt (by omega)]
      omega
    have himage := hpacked.image hesp
    have hlen := hpacked.argP
    dsimp only
    unfold setupArgPages
    dsimp only
    rw [mapOver_eq _ (fun v hv => (hareas v hv).trans (by omega)),
      mapOver_eq _ (fun v hv => (hareas v hv).trans (by omega)),
      writeStack_eq (BitVec.ofNat 32 (x.startStack - 4 * nw)) ?_ himage (by omega)]
    · refine stacked_of_words himage ?_ hesp (by omega)
      simp only [getNWord, atVectorSize, auxWords, List.length_cons, List.length_nil]
      omega
    · apply BitVec.eq_of_toNat_eq
      unfold off
      rw [BitVec.toNat_add, BitVec.toNat_ofNat, BitVec.toNat_ofNat, BitVec.toNat_ofNat,
        Nat.mod_eq_of_lt (show x.startStack < 2 ^ 32 by omega),
        Nat.mod_eq_of_lt (show x.startStack - 4 * nw < 2 ^ 32 by omega),
        Nat.mod_eq_of_lt (show 4 * nw < 2 ^ 32 by omega), Nat.mod_eq_of_lt (by omega)]
      omega

/-- A caller with one area for the arrays of pointers and their strings. -/
def caller (mem : Bytes) : UserSpace :=
  { mem := mem
    areas := [{ ptr := 1, vmStart := 0x1000, vmEnd := 0x3000
                vmFlags := ⟨true, true, false, false, false⟩, vmPageProt := ⟨true, true⟩
                vmFile := none, vmInode := none, vmOffset := 0, vmOps := none, area := 1 }]
    kernelDs := false
    stackLimit := 0 }

/-- Two arguments with an empty one between them, and one string for the environment. -/
def threeStrings : Bytes := fun a =>
  if a = 0x1001 then 0x20
  else if a = 0x1004 then 0x10 else if a = 0x1005 then 0x20
  else if a = 0x1008 then 0x20 else if a = 0x1009 then 0x20
  else if a = 0x1100 then 0x30 else if a = 0x1101 then 0x20
  else if a = 0x2000 then 0x61
  else if a = 0x2020 then 0x62 else if a = 0x2021 then 0x63
  else if a = 0x2030 then 0x64 else if a = 0x2031 then 0x3d
  else 0

/-- One argument, which begins with a given character. -/
def oneString (c : Byte) : Bytes := fun a => if a = 0x1001 then 0x20 else if a = 0x2000 then c else 0

/-- An environment with some free pages. -/
def freePages : Environment :=
  { frames := { data := fun _ _ => 0, used := fun _ => false, count := fun _ => 0
                answers := [some 1, some 2, some 3, some 4, some 5] }
    aux := (0x400034, 32, 3)
    areas := []
    kzalloc := (true, true) }

theorem threeStrings_args : Passed threeStrings 0x1000 [[0x61], [], [0x62, 0x63]] := by
  rw [Passed, if_neg (by decide)]
  exact StringsFrom.cons (by decide) ⟨by decide, by decide, by decide⟩
    (StringsFrom.cons (by decide) (StringAt.empty (by decide))
      (StringsFrom.cons (by decide) ⟨by decide, by decide, by decide⟩ (StringsFrom.nil (by decide))))

theorem threeStrings_envs : Passed threeStrings 0x1100 [[0x64, 0x3d]] := by
  rw [Passed, if_neg (by decide)]
  exact StringsFrom.cons (by decide) ⟨by decide, by decide, by decide⟩ (StringsFrom.nil (by decide))

theorem oneString_args : Passed (oneString 0x61) 0x1000 [[0x61]] := by
  rw [Passed, if_neg (by decide)]
  exact StringsFrom.cons (by decide) ⟨by decide, by decide, by decide⟩ (StringsFrom.nil (by decide))

theorem oneString_args_empty : Passed (oneString 0) 0x1000 [[]] := by
  rw [Passed, if_neg (by decide)]
  exact StringsFrom.cons (by decide) (StringAt.empty (by decide)) (StringsFrom.nil (by decide))

theorem oneString_runs : (execArgs (caller (oneString 0)) 3 0x1000 0 freePages).isSome = true := by decide +kernel

/-- Two arguments with an empty one between them, and an environment string. -/
theorem execArgs_stacked_three :
    ∃ r, execArgs (caller threeStrings) 5 0x1000 0x1100 freePages = some r ∧
      Stacked r.mem r.esp r.args.startStack [[0x61], [0x62, 0x63]] [[0x64, 0x3d]] ∧
      r.args.names.length = 3 ∧ ∀ n ∈ r.args.names, n.2 = n.1 * pageSize := by
  have hruns : (execArgs (caller threeStrings) 5 0x1000 0x1100 freePages).isSome = true := by decide +kernel
  have hrun : execArgs (caller threeStrings) 5 0x1000 0x1100 freePages = some (Option.get _ hruns) :=
    (Option.some_get _).symm
  refine ⟨_, hrun, (execArgs_stacked _ _ _ _ _ _ hrun).2 [[0x61], [], [0x62, 0x63]] [[0x64, 0x3d]]
    threeStrings_args threeStrings_envs ?_ ?_⟩
  · decide
  · intro v hv
    cases hv

/-- An empty argument is not counted: a program that is started with one is told that it has none. -/
theorem empty_not_counted :
    ∃ r, execArgs (caller (oneString 0)) 3 0x1000 0 freePages = some r ∧
      Passed (caller (oneString 0)).mem 0x1000 [[]] ∧ Passed (caller (oneString 0)).mem 0 [] ∧
      ¬ Stacked r.mem r.esp r.args.startStack [[]] [] := by
  have hrun : execArgs (caller (oneString 0)) 3 0x1000 0 freePages = some (Option.get _ oneString_runs) :=
    (Option.some_get _).symm
  refine ⟨_, hrun, oneString_args_empty, rfl, fun hstacked => ?_⟩
  have hargc := hstacked.argc
  revert hargc
  decide +kernel

end Mario.Fs.Exec
