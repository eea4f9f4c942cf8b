import Mario.Mm.Process
import Mario.Mm.VmaList
import Mathlib.Data.List.Induction

/-!
# Checked user ranges

`verify_area` of `mm/uaccess.c` walks over the areas of a whole range; `do_page_fault` looks for the area of
one address, and may move the start of a stack area down. Page faults leave the ends and the flags of the
areas as they are, so what the walk has found stays true.
-/

namespace Mario.Paging

open Mario.Mm

/-- `VERIFY_READ` and `VERIFY_WRITE`. -/
inductive AccessType
  | verifyRead
  | verifyWrite
  deriving DecidableEq

/-- The flag that `verify_area` wants. -/
def AccessType.flag (type : AccessType) (flags : VmFlags) : Bool :=
  match type with
  | .verifyRead => flags.read
  | .verifyWrite => flags.write

/-- The two loops of `verify_area`; `true` is the result 0. -/
def walkAreas (type : AccessType) (start size : ℕ) (vma : Vma) : List Vma → Bool
  | [] => type.flag vma.vmFlags && decide (size ≤ sub32 vma.vmEnd start)
  | next :: l =>
      if !type.flag vma.vmFlags then false
      else if size ≤ sub32 vma.vmEnd start then true
      else if vma.vmEnd ≠ next.vmStart then false
      else walkAreas type start size next l

/-- `verify_area`, where `true` is the result 0; `ds` and `fs` are the segment registers. -/
def verifyArea (k : Kernel) (ds fs : ℕ) (l : List Vma) (type : AccessType) (addr size : ℕ) : Bool :=
  if ds = fs then true
  else
    match l.dropWhile fun vma => decide (vma.vmEnd ≤ addr) with
    | [] => false
    | vma :: rest =>
        if vma.vmStart ≤ addr then walkAreas type addr size vma rest
        else if !vma.vmFlags.growsdown then false
        else if k.rlimStack < sub32 vma.vmEnd addr then false
        else walkAreas type addr size vma rest

/-- `do_page_fault` comes to `bad_area`. -/
def badArea (k : Kernel) (l : List Vma) (addr : ℕ) (present write : Bool) : Bool :=
  match faultArea k addr l with
  | none => true
  | some (v, _) => faultDenied v present write

/-- The areas after `do_page_fault`. -/
def faultAreas (k : Kernel) (l : List Vma) (addr : ℕ) : List Vma :=
  match faultArea k addr l with
  | none => l
  | some (_, l') => l'

/-- The page faults of kernel accesses: a processor in kernel mode reads every page that is present, so only
a write can be a protection fault. -/
def KernelFault (type : AccessType) (present write : Bool) : Prop :=
  (write = true ↔ type = .verifyWrite) ∧ (present = true → write = true)

/-- The area of an address is found, or its start moves down to the address. -/
theorem badArea_eq_false {k : Kernel} {l : List Vma} {v : Vma} {x : ℕ} {present write : Bool}
    (hfind : findVma x l = some v) (hreach : v.vmStart ≤ x ∨ v.vmFlags.growsdown = true ∧ v.vmEnd - x ≤ k.rlimStack)
    (hflag : faultDenied v present write = false) : badArea k l x present write = false := by
  unfold badArea faultArea
  rw [hfind, Option.bind_some]
  by_cases hstart : v.vmStart ≤ x
  · rw [if_pos hstart]
    exact hflag
  · obtain ⟨hgrow, hrlim⟩ := hreach.resolve_left hstart
    rw [if_neg hstart, if_neg (by rw [hgrow]; simp; omega)]
    exact hflag

/-- What `do_page_fault` wants is not more than what `verify_area` has seen. -/
theorem faultDenied_eq_false {type : AccessType} {v : Vma} {present write : Bool}
    (hflag : type.flag v.vmFlags = true) (hfault : KernelFault type present write) :
    faultDenied v present write = false := by
  obtain ⟨hwrite, hpresent⟩ := hfault
  unfold faultDenied
  cases write with
  | true =>
    obtain rfl := hwrite.mp rfl
    have hw : v.vmFlags.write = true := hflag
    simp [hw]
  | false =>
    cases type with
    | verifyWrite => exact absurd (hwrite.mpr rfl) Bool.false_ne_true
    | verifyRead =>
      have hr : v.vmFlags.read = true := hflag
      have hnot : present = false := by
        by_contra hp
        exact absurd (hpresent (Bool.eq_true_of_not_eq_false hp)) Bool.false_ne_true
      simp [hr, hnot]

/-! ## Stack growth -/

/-- An area whose start has moved down, or not. -/
def Lowered (v w : Vma) : Prop :=
  w.vmEnd = v.vmEnd ∧ w.vmFlags = v.vmFlags ∧ w.vmStart ≤ v.vmStart

theorem Lowered.refl (v : Vma) : Lowered v v := ⟨rfl, rfl, Nat.le_refl _⟩

variable {k : Kernel} {l l' rest : List Vma} {v w : Vma} {x start size : ℕ} {type : AccessType}

theorem findVma_lowered (h : List.Forall₂ Lowered l l') (hfind : findVma x l = some v) :
    ∃ w, findVma x l' = some w ∧ Lowered v w := by
  induction h with
  | nil => exact absurd hfind (by simp [findVma])
  | @cons u u' l l' hu _ ih =>
    unfold findVma at *
    rw [List.find?_cons] at *
    rw [hu.1]
    split at hfind
    · cases hfind
      exact ⟨u', rfl, hu⟩
    · exact ih hfind

theorem growFirst_lowered (h : List.Forall₂ Lowered l l') (hfind : findVma x l' = some w)
    (hx : x < w.vmStart) : List.Forall₂ Lowered l (growFirst x l') := by
  induction h with
  | nil => exact List.Forall₂.nil
  | @cons u u' l l' hu hl ih =>
    unfold findVma at *
    rw [List.find?_cons] at hfind
    rw [growFirst]
    by_cases hend : x < u'.vmEnd
    · rw [if_pos hend]
      simp only [hend, decide_true, Option.some.injEq] at hfind
      subst hfind
      refine List.Forall₂.cons ⟨hu.1, hu.2.1, ?_⟩ hl
      have hdown := pageMask_le x
      have hle := hu.2.2
      simp only [growDown]
      omega
    · rw [if_neg hend]
      simp only [hend, decide_false] at hfind
      exact List.Forall₂.cons hu (ih hfind)

theorem faultAreas_lowered (h : List.Forall₂ Lowered l l') (x : ℕ) : List.Forall₂ Lowered l (faultAreas k l' x) := by
  unfold faultAreas faultArea
  cases hfind : findVma x l' with
  | none => exact h
  | some w =>
    rw [Option.bind_some]
    by_cases hstart : w.vmStart ≤ x
    · rw [if_pos hstart]
      exact h
    · rw [if_neg hstart]
      split_ifs
      · exact h
      · exact growFirst_lowered h hfind (Nat.lt_of_not_le hstart)

theorem faults_lowered (k : Kernel) (l : List Vma) (faults : List ℕ) :
    List.Forall₂ Lowered l (faults.foldl (faultAreas k) l) := by
  induction faults using List.reverseRecOn with
  | nil => exact List.forall₂_same.mpr fun v _ => Lowered.refl v
  | append_singleton faults x ih =>
    rw [List.foldl_append]
    exact faultAreas_lowered ih x

/-! ## The walk -/

theorem verifyVm_cons (h : verifyVm (v :: l) = true) :
    v.vmStart < v.vmEnd ∧ v.vmEnd < wordSize ∧ (∀ w ∈ l.head?, v.vmEnd ≤ w.vmStart) ∧ verifyVm l = true := by
  simp only [verifyVm, Bool.and_eq_true, decide_eq_true_eq] at h
  obtain ⟨⟨hlt, -, haligned, hnext⟩, hrest⟩ := h
  refine ⟨hlt, ?_, hnext, hrest⟩
  rw [← haligned]
  unfold pageAlign pageSize wordSize
  omega

/-- Every byte of the range is in an area with the flag, or in the gap below the first one. -/
theorem walkAreas_spec (h : verifyVm (v :: rest) = true) (hstart : start < v.vmEnd)
    (hwalk : walkAreas type start size v rest = true) (hsize : x < start + size) :
    ∃ w, findVma x (v :: rest) = some w ∧ x < w.vmEnd ∧ w.vmEnd < wordSize ∧
      type.flag w.vmFlags = true ∧ (w = v ∨ w.vmStart ≤ x) := by
  induction rest generalizing v with
  | nil =>
    obtain ⟨-, hend, -, -⟩ := verifyVm_cons h
    simp only [walkAreas, Bool.and_eq_true, decide_eq_true_eq] at hwalk
    obtain ⟨hflag, hle⟩ := hwalk
    rw [sub32_eq hstart.le hend] at hle
    have hin : x < v.vmEnd := by omega
    refine ⟨v, ?_, hin, hend, hflag, Or.inl rfl⟩
    simp [findVma, hin]
  | cons next l ih =>
    obtain ⟨-, hend, -, hrest⟩ := verifyVm_cons h
    obtain ⟨hnext, -, -, -⟩ := verifyVm_cons hrest
    rw [walkAreas, sub32_eq hstart.le hend] at hwalk
    have hflag : type.flag v.vmFlags = true := by
      by_contra hnot
      simp [hnot] at hwalk
    by_cases hin : x < v.vmEnd
    · refine ⟨v, ?_, hin, hend, hflag, Or.inl rfl⟩
      simp [findVma, hin]
    · -- the walk has gone on to the next area, which begins here
      rw [hflag, Bool.not_true, if_neg Bool.false_ne_true, if_neg (by omega)] at hwalk
      split_ifs at hwalk with hgap
      rw [not_not] at hgap
      obtain ⟨w, hfind, hlt, hword, hwflag, hcase⟩ := ih hrest (by omega) hwalk
      refine ⟨w, ?_, hlt, hword, hwflag, Or.inr ?_⟩
      · unfold findVma at *
        rw [List.find?_cons]
        simp only [hin, decide_false]
        exact hfind
      · rcases hcase with rfl | hle
        · omega
        · exact hle

theorem findVma_dropWhile (hx : start ≤ x) :
    findVma x l = findVma x (l.dropWhile fun v => decide (v.vmEnd ≤ start)) := by
  induction l with
  | nil => rfl
  | cons v l ih =>
    rw [List.dropWhile_cons]
    by_cases hend : v.vmEnd ≤ start
    · have hnot : ¬ x < v.vmEnd := by omega
      simp only [hend, decide_true, if_true]
      rw [← ih]
      unfold findVma
      rw [List.find?_cons]
      simp only [hnot, decide_false]
    · simp only [hend, decide_false, Bool.false_eq_true, if_false]

theorem verifyVm_dropWhile (h : verifyVm l = true) (p : Vma → Bool) : verifyVm (l.dropWhile p) = true := by
  induction l with
  | nil => rfl
  | cons v l ih =>
    rw [List.dropWhile_cons]
    split_ifs
    · exact ih (verifyVm_cons h).2.2.2
    · exact h

/-- What `verify_area` has found out about an address of the range. -/
theorem verifyArea_spec {ds fs addr : ℕ} (h : verifyVm l = true) (hfs : ds ≠ fs)
    (hok : verifyArea k ds fs l type addr size = true) (hx : addr ≤ x) (hsize : x < addr + size) :
    ∃ v, findVma x l = some v ∧ x < v.vmEnd ∧ v.vmEnd < wordSize ∧ type.flag v.vmFlags = true ∧
      (v.vmStart ≤ x ∨ v.vmFlags.growsdown = true ∧ v.vmEnd - x ≤ k.rlimStack) := by
  unfold verifyArea at hok
  rw [if_neg hfs] at hok
  rw [findVma_dropWhile hx]
  have hverify := verifyVm_dropWhile h fun v => decide (v.vmEnd ≤ addr)
  cases hdrop : l.dropWhile fun v => decide (v.vmEnd ≤ addr) with
  | nil => rw [hdrop] at hok; exact absurd hok Bool.false_ne_true
  | cons v rest =>
    rw [hdrop] at hok hverify
    obtain ⟨-, hend, -, -⟩ := verifyVm_cons hverify
    have hbefore : addr < v.vmEnd := by
      have hhead := List.head?_dropWhile_not (fun v : Vma => decide (v.vmEnd ≤ addr)) l
      rw [hdrop] at hhead
      simpa using hhead
    dsimp only at hok
    split_ifs at hok with hstart hgrow hrlim
    · obtain ⟨w, hfind, hlt, hword, hflag, hcase⟩ := walkAreas_spec hverify hbefore hok hsize
      refine ⟨w, hfind, hlt, hword, hflag, Or.inl ?_⟩
      rcases hcase with rfl | hle
      · omega
      · exact hle
    · obtain ⟨w, hfind, hlt, hword, hflag, hcase⟩ := walkAreas_spec hverify hbefore hok hsize
      refine ⟨w, hfind, hlt, hword, hflag, ?_⟩
      rcases hcase with rfl | hle
      · right
        rw [sub32_eq hbefore.le hend] at hrlim
        refine ⟨by simpa using hgrow, by omega⟩
      · exact Or.inl hle

/-- A range that `verify_area` accepts for the user segment is accepted by `do_page_fault` at every byte,
whatever faults there were before. -/
theorem verify_area_sound (k : Kernel) (l : List Vma) (h : verifyVm l = true) (ds fs : ℕ)
    (hfs : ds ≠ fs) (type : AccessType) (addr size : ℕ)
    (hok : verifyArea k ds fs l type addr size = true) :
    ∀ (faults : List ℕ) (i : ℕ), i < size → ∀ present write, KernelFault type present write →
      badArea k (faults.foldl (faultAreas k) l) ((addr + i) % wordSize) present write = false := by
  intro faults i hi present write hfault
  obtain ⟨v, hfind, hlt, hword, hflag, hreach⟩ :=
    verifyArea_spec h hfs hok (Nat.le_add_right addr i) (by omega)
  obtain ⟨w, hfind', hend, hflags, hstart⟩ := findVma_lowered (faults_lowered k l faults) hfind
  rw [Nat.mod_eq_of_lt (by omega)]
  refine badArea_eq_false hfind' ?_ (faultDenied_eq_false (by rw [hflags]; exact hflag) hfault)
  rcases hreach with hle | ⟨hgrow, hrlim⟩
  · exact Or.inl (hstart.trans hle)
  · right
    rw [hflags, hend]
    exact ⟨hgrow, hrlim⟩

def stackKernel : Kernel where
  files := fun _ => ⟨3, none, none⟩
  bad := 7
  bad_lt := Nat.le_of_ble_eq_true rfl
  rlimStack := 16384

def area (ptr start fin : ℕ) (growsdown : Bool) : Vma :=
  { ptr := ptr, vmStart := start, vmEnd := fin
    vmFlags := ⟨true, true, false, false, growsdown⟩, vmPageProt := ⟨true, true⟩
    vmFile := none, vmInode := none, vmOffset := 0, vmOps := none, area := ptr }

/-- The range begins in the gap below a stack area and ends in the area behind it. -/
theorem verify_area_sound_stack :
    verifyArea stackKernel 0x10 0x23 [area 1 0x5000 0x6000 true, area 2 0x6000 0x7000 false]
        .verifyWrite 0x4800 0x2000 = true ∧
      ∀ (faults : List ℕ) (i : ℕ), i < 0x2000 → ∀ present write,
        KernelFault .verifyWrite present write →
        badArea stackKernel (faults.foldl (faultAreas stackKernel)
          [area 1 0x5000 0x6000 true, area 2 0x6000 0x7000 false]) ((0x4800 + i) % wordSize)
          present write = false := by
  constructor
  · decide
  · exact verify_area_sound stackKernel
      [area 1 0x5000 0x6000 true, area 2 0x6000 0x7000 false] (by decide) 0x10 0x23 (by decide)
      .verifyWrite 0x4800 0x2000 (by decide)

/-- With the kernel's segment every range is accepted. -/
theorem verify_area_kernel_segment :
    ¬ ∀ (k : Kernel) (l : List Vma), verifyVm l = true → ∀ (ds fs : ℕ) (type : AccessType)
      (addr size : ℕ), verifyArea k ds fs l type addr size = true →
      ∀ (faults : List ℕ) (i : ℕ), i < size → ∀ present write, KernelFault type present write →
        badArea k (faults.foldl (faultAreas k) l) ((addr + i) % wordSize) present write = false := by
  intro h
  have hread := h stackKernel [] rfl 0x10 0x10 .verifyRead 0 1 (by decide) [] 0 (by decide) false
    false ⟨by decide, by decide⟩
  exact absurd hread (by decide)

end Mario.Paging
