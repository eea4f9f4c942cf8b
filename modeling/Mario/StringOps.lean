import Mathlib.Data.BitVec

/-!
# The string instructions

The loops of `lib/string.c` and `mm/uaccess.c`, instruction by instruction: `lodsb`, `stosb` and `cmpsb` move
`esi` and `edi` on, `loop` and `loope` count `ecx` down before they look at it, and `repe` looks at it first. A
segment adds its base to an address, so the loops run over linear addresses. They have a number of rounds that
are left, and no result when it is used up.
-/

namespace Mario.StringOps

abbrev Byte := BitVec 8

abbrev Addr := BitVec 32

/-- The memory, and the addresses that were read and written. -/
structure Machine where
  mem : Addr → Byte
  loads : List Addr
  stores : List Addr

def Machine.load (s : Machine) (a : Addr) : Machine := { s with loads := s.loads ++ [a] }

def Machine.store (s : Machine) (a : Addr) (b : Byte) : Machine :=
  { s with mem := Function.update s.mem a b, stores := s.stores ++ [a] }

/-- The loop of `strcpy`. -/
def strcpyLoop : (fuel : ℕ) → (edi esi : Addr) → Machine → Option Machine
  | 0, _, _, _ => none
  | fuel + 1, edi, esi, s =>
      let al := s.mem esi
      let s := s.load esi
      if al = 0 then some s else strcpyLoop fuel (edi + 1) (esi + 1) (s.store edi al)

/-- A loop that copies and counts, and may test for a zero byte. -/
def copyLoop (tests : Bool) : (fuel : ℕ) → (ecx edi esi : Addr) → Machine → Option Machine
  | 0, _, _, _, _ => none
  | fuel + 1, ecx, edi, esi, s =>
      let al := s.mem esi
      let s := s.load esi
      if tests ∧ al = 0 then some s
      else
        let s := s.store edi al
        if ecx - 1 = 0 then some s else copyLoop tests fuel (ecx - 1) (edi + 1) (esi + 1) s

def strncpy (fuel : ℕ) (dst src num : Addr) (s : Machine) : Option Machine := copyLoop true fuel num dst src s

/-- `memcpy_fromfs`, with the base of the segment. -/
def memcpyFromfs (fuel : ℕ) (fs dst src n : Addr) (s : Machine) : Option Machine :=
  copyLoop false fuel n dst (fs + src) s

def memcpyTofs (fuel : ℕ) (fs dst src n : Addr) (s : Machine) : Option Machine :=
  copyLoop false fuel n (fs + dst) src s

/-- A loop that compares and counts, and may test for a zero byte: the machine, and the bytes where it stops. -/
def compareLoop (tests : Bool) : (fuel : ℕ) → (ecx edi esi : Addr) → Machine → Option (Machine × Addr × Addr)
  | 0, _, _, _, _ => none
  | fuel + 1, ecx, edi, esi, s =>
      let s := if tests then s.load edi else s
      if tests ∧ s.mem edi = 0 then some (s, edi, esi)
      else
        let s' := (s.load esi).load edi
        if ecx - 1 ≠ 0 ∧ s.mem esi = s.mem edi then compareLoop tests fuel (ecx - 1) (edi + 1) (esi + 1) s'
        else some (s', edi, esi)

/-- `movb` and `subb`, and the extension of the difference. -/
def difference (extend : Byte → BitVec 32) (r : Machine × Addr × Addr) : Machine × BitVec 32 :=
  ((r.1.load r.2.1).load r.2.2, extend (r.1.mem r.2.1 - r.1.mem r.2.2))

/-- `memcmp`. The bytes before the pointers are the last ones that `repe cmpsb` has compared, if it has. -/
def memcmp (fuel : ℕ) (ptr1 ptr2 num : Addr) (s : Machine) : Option (Machine × BitVec 32) :=
  if num = 0 then some (difference (BitVec.setWidth 32) (s, ptr1 - 1, ptr2 - 1))
  else (compareLoop false fuel num ptr1 ptr2 s).map (difference (BitVec.setWidth 32))

def strncmp (fuel : ℕ) (string1 string2 num : Addr) (s : Machine) : Option (Machine × BitVec 32) :=
  (compareLoop true fuel num string1 string2 s).map (difference (BitVec.signExtend 32))

/-! ## Contracts -/

/-- The address of a byte behind a pointer. -/
def byteAt (p : Addr) (i : ℕ) : Addr := p + BitVec.ofNat 32 i

/-- A string of some length, with its terminating zero. -/
structure IsString (mem : Addr → Byte) (src : Addr) (len : ℕ) : Prop where
  fits : len < 2 ^ 32
  nonzero : ∀ i < len, mem (byteAt src i) ≠ 0
  zero : mem (byteAt src len) = 0

/-- Bytes that are written and bytes that are read do not overlap. -/
def Apart (dst src : Addr) (n m : ℕ) : Prop := ∀ i < n, ∀ j < m, byteAt dst i ≠ byteAt src j

/-- The addresses of a list are among the first bytes of an operand. -/
def Among (l : List Addr) (p : Addr) (n : ℕ) : Prop := ∀ a ∈ l, ∃ i < n, a = byteAt p i

/-- A loop ends with a result. -/
def Returns {α : Type} (f : ℕ → Option α) (r : α) : Prop := ∃ n, ∀ fuel ≥ n, f fuel = some r

/-- What is compared is equal: all bytes, or those up to the first zero. -/
def PrefixEq (tests : Bool) (mem : Addr → Byte) (p q : Addr) (n : ℕ) : Prop :=
  ∀ i < n, (∀ j < i, tests = true → mem (byteAt p j) ≠ 0) → mem (byteAt p i) = mem (byteAt q i)

/-- A machine that has not touched its memory yet. -/
def start (mem : Addr → Byte) : Machine := ⟨mem, [], []⟩

/-- Exactly `n` bytes are copied between operands that do not overlap. -/
def Copies (mem : Addr → Byte) (f : ℕ → Option Machine) (dst src n : Addr) : Prop :=
  Apart dst src n.toNat n.toNat → ∃ s, Returns f s ∧
    (∀ i < n.toNat, s.mem (byteAt dst i) = mem (byteAt src i)) ∧ Among s.stores dst n.toNat ∧ Among s.loads src n.toNat

/-- The result is zero exactly when the operands are equal, and no other byte is touched. -/
def Compares (tests : Bool) (mem : Addr → Byte) (f : ℕ → Option (Machine × BitVec 32)) (p q n : Addr) : Prop :=
  ∃ s r, Returns f (s, r) ∧ (r = 0 ↔ PrefixEq tests mem p q n.toNat) ∧
    ∀ a ∈ s.loads, ∃ i < n.toNat, a = byteAt p i ∨ a = byteAt q i

/-- A call of a routine. -/
inductive Call
  | strcpy (dst src : Addr)
  | strncpy (dst src num : Addr)
  | memcmp (ptr1 ptr2 num : Addr)
  | strncmp (string1 string2 num : Addr)
  | memcpyFromfs (fs dst src n : Addr)
  | memcpyTofs (fs dst src n : Addr)

/-- The contract of a routine. -/
def Meets (mem : Addr → Byte) : Call → Prop
  | .strcpy dst src => ∀ len, IsString mem src len → Apart dst src (len + 1) (len + 1) →
      ∃ s, Returns (fun fuel => strcpyLoop fuel dst src (start mem)) s ∧
        ∀ i ≤ len, s.mem (byteAt dst i) = mem (byteAt src i)
  | .strncpy dst src num => ∀ len, IsString mem src len → Apart dst src num.toNat (min (len + 1) num.toNat) →
      ∃ s, Returns (fun fuel => strncpy fuel dst src num (start mem)) s ∧
        (∀ i < num.toNat, i ≤ len → s.mem (byteAt dst i) = mem (byteAt src i)) ∧ Among s.stores dst num.toNat
  | .memcmp ptr1 ptr2 num => Compares false mem (fun fuel => memcmp fuel ptr1 ptr2 num (start mem)) ptr1 ptr2 num
  | .strncmp string1 string2 num =>
      Compares true mem (fun fuel => strncmp fuel string1 string2 num (start mem)) string1 string2 num
  | .memcpyFromfs fs dst src n =>
      Copies mem (fun fuel => memcpyFromfs fuel fs dst src n (start mem)) dst (fs + src) n
  | .memcpyTofs fs dst src n => Copies mem (fun fuel => memcpyTofs fuel fs dst src n (start mem)) (fs + dst) src n

/-- When a routine meets its contract: the zero behind a copied string is there before, and no count is zero. -/
def Meetable (mem : Addr → Byte) : Call → Prop
  | .strcpy dst src => ∀ len, IsString mem src len → Apart dst src (len + 1) (len + 1) →
      mem (byteAt dst len) = 0
  | .strncpy dst src num => ∀ len, IsString mem src len → Apart dst src num.toNat (min (len + 1) num.toNat) →
      (num = 0 → len = 0) ∧ (len < num.toNat → mem (byteAt dst len) = 0)
  | .memcmp _ _ num | .strncmp _ _ num => num ≠ 0
  | .memcpyFromfs _ _ _ n | .memcpyTofs _ _ _ n => n ≠ 0

variable {s s' : Machine} {mem : Addr → Byte} {p q a dst src num : Addr} {tests : Bool} {len n i j fuel : ℕ}

/-! ## Addresses -/

@[simp]
theorem byteAt_zero (p : Addr) : byteAt p 0 = p := BitVec.add_zero p

@[simp]
theorem byteAt_succ (p : Addr) (i : ℕ) : byteAt (p + 1) i = byteAt p (i + 1) := by
  unfold byteAt
  rw [BitVec.ofNat_add, BitVec.add_assoc, BitVec.add_comm 1]
  rfl

theorem byteAt_inj (hi : i < 2 ^ 32) (hj : j < 2 ^ 32) (h : byteAt p i = byteAt p j) : i = j := by
  have hnat := congrArg BitVec.toNat ((BitVec.add_right_inj p).mp h)
  rwa [BitVec.toNat_ofNat, BitVec.toNat_ofNat, Nat.mod_eq_of_lt hi, Nat.mod_eq_of_lt hj] at hnat

theorem toNat_pred (h : num ≠ 0) : (num - 1).toNat + 1 = num.toNat := by
  have hpos : num.toNat ≠ 0 := fun hzero => h (BitVec.eq_of_toNat_eq hzero)
  have hlt := num.isLt
  have hone : (1 : Addr).toNat = 1 := rfl
  rw [BitVec.toNat_sub, hone]
  omega

theorem toNat_eq_one (h : num ≠ 0) (hone : num - 1 = 0) : num.toNat = 1 := by
  rw [← toNat_pred h, hone]
  rfl

theorem Returns.unique {α : Type} {f : ℕ → Option α} {r r' : α} (h : Returns f r) (h' : Returns f r') : r = r' := by
  obtain ⟨n, hn⟩ := h
  obtain ⟨n', hn'⟩ := h'
  exact Option.some.inj ((hn (max n n') (Nat.le_max_left _ _)).symm.trans (hn' _ (Nat.le_max_right _ _)))

theorem Apart.mono {m : ℕ} (h : Apart dst src n len) (hm : m ≤ n) (hi : i ≤ len) : Apart dst src m i :=
  fun _ hj _ hk => h _ (Nat.lt_of_lt_of_le hj hm) _ (Nat.lt_of_lt_of_le hk hi)

theorem Apart.first (h : Apart dst src n len) (hn : 0 < n) : ∀ j < len, dst ≠ byteAt src j := by
  intro j hj
  have hne := h 0 hn j hj
  rwa [byteAt_zero] at hne

theorem Apart.rest {m : ℕ} (h : Apart dst src n len) (hm : m + 1 ≤ n) (hlen : i + 1 ≤ len) :
    Apart (dst + 1) (src + 1) m i := by
  intro i hi j hj
  rw [byteAt_succ, byteAt_succ]
  exact h (i + 1) (by omega) (j + 1) (by omega)

/-! ## Copying -/

/-- The first bytes are copied one after the other. -/
def Machine.copy : ℕ → Addr → Addr → Machine → Machine
  | 0, _, _, s => s
  | n + 1, dst, src, s => Machine.copy n (dst + 1) (src + 1) ((s.load src).store dst (s.mem src))

theorem store_mem (s : Machine) (a p : Addr) (b : Byte) : (s.store p b).mem a = if a = p then b else s.mem a := by
  simp [Machine.store, Function.update_apply]

theorem copy_outside (h : ∀ i < n, a ≠ byteAt dst i) : (s.copy n dst src).mem a = s.mem a := by
  induction n generalizing dst src s with
  | zero => rfl
  | succ n ih =>
    have hfirst := h 0 (Nat.succ_pos n)
    rw [byteAt_zero] at hfirst
    rw [Machine.copy, ih fun i hi => byteAt_succ dst i ▸ h (i + 1) (Nat.succ_lt_succ hi), store_mem, if_neg hfirst]
    rfl

/-- A byte further on, after the first one was copied to another place. -/
theorem tail_mem {b : Byte} (h : dst ≠ byteAt src (j + 1)) :
    ((s.load src).store dst b).mem (byteAt (src + 1) j) = s.mem (byteAt src (j + 1)) := by
  rw [store_mem, byteAt_succ, if_neg h.symm]
  rfl

theorem copy_mem (hn : n ≤ 2 ^ 32) (h : Apart dst src n n) (hi : i < n) :
    (s.copy n dst src).mem (byteAt dst i) = s.mem (byteAt src i) := by
  induction n generalizing dst src s i with
  | zero => exact absurd hi (Nat.not_lt_zero i)
  | succ n ih =>
    rw [Machine.copy]
    cases i with
    | zero =>
      rw [copy_outside fun j hj heq => ?_, store_mem, byteAt_zero, byteAt_zero, if_pos rfl]
      rw [byteAt_succ] at heq
      exact absurd (byteAt_inj (by omega) (by omega) heq) (Nat.succ_ne_zero j).symm
    | succ i =>
      rw [← byteAt_succ, ih (by omega) (h.rest (Nat.le_refl _) (Nat.le_refl _)) (by omega),
        tail_mem (h.first (Nat.succ_pos n) _ hi)]

/-- A copy touches the bytes it copies. -/
theorem copy_touched : (∀ a ∈ (s.copy n dst src).stores, a ∈ s.stores ∨ ∃ i < n, a = byteAt dst i) ∧
    ∀ a ∈ (s.copy n dst src).loads, a ∈ s.loads ∨ ∃ i < n, a = byteAt src i := by
  have hstep : ∀ (l : List Addr) (p a : Addr) (n : ℕ), (a ∈ l ++ [p] ∨ ∃ i < n, a = byteAt (p + 1) i) →
      a ∈ l ∨ ∃ i < n + 1, a = byteAt p i := by
    intro l p a n h
    rcases h with hold | ⟨i, hi, heq⟩
    · rcases List.mem_append.mp hold with hbefore | hnow
      · exact .inl hbefore
      · exact .inr ⟨0, Nat.succ_pos n, (List.mem_singleton.mp hnow).trans (byteAt_zero p).symm⟩
    · exact .inr ⟨i + 1, Nat.succ_lt_succ hi, heq.trans (byteAt_succ p i)⟩
  induction n generalizing dst src s with
  | zero => exact ⟨fun a ha => .inl ha, fun a ha => .inl ha⟩
  | succ n ih => exact ⟨fun a ha => hstep _ _ _ _ (ih.1 a ha), fun a ha => hstep _ _ _ _ (ih.2 a ha)⟩

/-- `strcpy` copies a string without its zero. -/
theorem strcpyLoop_eq (hne : ∀ i < len, s.mem (byteAt src i) ≠ 0) (hzero : s.mem (byteAt src len) = 0)
    (hapart : Apart dst src len (len + 1)) (hfuel : len < fuel) :
    strcpyLoop fuel dst src s = some ((s.copy len dst src).load (byteAt src len)) := by
  induction len generalizing dst src s fuel with
  | zero =>
    obtain ⟨fuel, rfl⟩ := Nat.exists_eq_succ_of_ne_zero (Nat.ne_of_gt hfuel)
    rw [byteAt_zero] at hzero ⊢
    exact if_pos hzero
  | succ len ih =>
    obtain ⟨fuel, rfl⟩ := Nat.exists_eq_succ_of_ne_zero (Nat.ne_of_gt (Nat.lt_of_le_of_lt (Nat.zero_le _) hfuel))
    have hfirst := hne 0 (Nat.succ_pos len)
    have hout := hapart.first (Nat.succ_pos len)
    rw [byteAt_zero] at hfirst
    rw [strcpyLoop, if_neg hfirst, ih ?_ ?_ (hapart.rest (Nat.le_refl _) (Nat.le_refl _)) (by omega), byteAt_succ]
    · rfl
    · intro i hi
      rw [tail_mem (hout _ (by omega))]
      exact hne _ (by omega)
    · rw [tail_mem (hout _ (by omega))]
      exact hzero

/-- A loop that counts copies no more than `num` bytes, and no zero that it tests for. -/
theorem copyLoop_eq (hne : ∀ i < len, i < num.toNat → ¬(tests = true ∧ s.mem (byteAt src i) = 0))
    (hzero : len < num.toNat → tests = true ∧ s.mem (byteAt src len) = 0) (hnum : num ≠ 0)
    (hapart : Apart dst src num.toNat (min (len + 1) num.toNat)) (hfuel : min (len + 1) num.toNat ≤ fuel) :
    copyLoop tests fuel num dst src s =
      some (if len < num.toNat then (s.copy len dst src).load (byteAt src len)
        else s.copy num.toNat dst src) := by
  have hpred := toNat_pred hnum
  induction len generalizing num dst src s fuel with
  | zero =>
    obtain ⟨fuel, rfl⟩ := Nat.exists_eq_succ_of_ne_zero (show fuel ≠ 0 by omega)
    have hfirst := hzero (by omega)
    rw [if_pos (by omega)]
    rw [byteAt_zero] at hfirst ⊢
    exact if_pos hfirst
  | succ len ih =>
    obtain ⟨fuel, rfl⟩ := Nat.exists_eq_succ_of_ne_zero (show fuel ≠ 0 by omega)
    have hfirst := hne 0 (Nat.succ_pos len) (by omega)
    have hout := hapart.first (by omega)
    rw [byteAt_zero] at hfirst
    rw [copyLoop, if_neg hfirst]
    by_cases hone : num - 1 = 0
    · rw [if_pos hone, toNat_eq_one hnum hone, if_neg (by omega)]
      rfl
    · have hrest := toNat_pred hone
      have hless : min (len + 1) (num - 1).toNat ≤ fuel := by omega
      rw [if_neg hone, ih ?_ ?_ hone (hapart.rest (by omega) (by omega)) hless hrest, byteAt_succ]
      · by_cases hlen : len < (num - 1).toNat
        · rw [if_pos hlen, if_pos (by omega)]
          rfl
        · rw [if_neg hlen, if_neg (by omega), ← hpred]
          rfl
      · intro i hi hlt
        rw [tail_mem (hout _ (by omega))]
        exact hne _ (by omega) (by omega)
      · intro hlt
        rw [tail_mem (hout _ (by omega))]
        exact hzero (by omega)

/-- What has been written stays written, in a loop that copies. -/
theorem copyLoop_stores (h : copyLoop tests fuel num dst src s = some s') : ∀ a ∈ s.stores, a ∈ s'.stores := by
  induction fuel generalizing num dst src s with
  | zero => cases h
  | succ fuel ih =>
    intro a ha
    rw [copyLoop] at h
    split_ifs at h
    · cases h
      exact ha
    · cases h
      exact List.mem_append_left _ ha
    · exact ih h a (List.mem_append_left _ ha)

/-- With a count of zero, the first byte is written unless the test stops the loop. -/
theorem copyLoop_zero {n : ℕ} (hgo : ¬(tests = true ∧ (start mem).mem src = 0))
    (h : copyLoop tests (n + 1) 0 dst src (start mem) = some s) : ¬ Among s.stores dst 0 := by
  intro hstores
  rw [copyLoop, if_neg hgo, if_neg (by decide)] at h
  obtain ⟨i, hi, -⟩ := hstores dst (copyLoop_stores h dst (by simp [Machine.store]))
  exact absurd hi (Nat.not_lt_zero i)

/-! ## Comparing -/

/-- What is tested first. -/
def Machine.test (s : Machine) (tests : Bool) (p : Addr) : Machine := if tests then s.load p else s

theorem test_mem (s : Machine) (tests : Bool) (p : Addr) : (s.test tests p).mem = s.mem := by
  cases tests with
  | false => rfl
  | true => rfl

/-- Where a loop that compares stops, the bytes there decide. -/
theorem compareLoop_spec (tests : Bool) (hnum : num ≠ 0) : ∃ s' k, k < num.toNat ∧ s'.mem = s.mem ∧
    (∀ fuel ≥ num.toNat, compareLoop tests fuel num p q s = some (s', byteAt p k, byteAt q k)) ∧
    (PrefixEq tests s.mem p q num.toNat ↔ s.mem (byteAt p k) = s.mem (byteAt q k)) ∧
    ∀ a ∈ s'.loads, a ∈ s.loads ∨ ∃ i < num.toNat, a = byteAt p i ∨ a = byteAt q i := by
  obtain ⟨m, hm⟩ : ∃ m, num.toNat = m := ⟨_, rfl⟩
  induction m generalizing num p q s with
  | zero => exact absurd (BitVec.eq_of_toNat_eq hm) hnum
  | succ m ih =>
    have hpred := toNat_pred hnum
    have htested : ∀ a ∈ (s.test tests p).loads, a ∈ s.loads ∨ a = p := by
      unfold Machine.test
      split_ifs
      · exact fun a ha => (List.mem_append.mp ha).imp id List.mem_singleton.mp
      · exact fun a ha => .inl ha
    have hboth : ∀ a ∈ (((s.test tests p).load q).load p).loads, a ∈ s.loads ∨ a = p ∨ a = q := by
      intro a ha
      simp only [Machine.load, List.mem_append, List.mem_singleton] at ha
      rcases ha with (htest | rfl) | rfl
      · exact (htested a htest).imp id .inl
      · exact .inr (.inr rfl)
      · exact .inr (.inl rfl)
    have hzeroth : ∀ a, (a = p ∨ a = q) → ∃ i < num.toNat, a = byteAt p i ∨ a = byteAt q i :=
      fun a ha => ⟨0, by omega, by rwa [byteAt_zero, byteAt_zero]⟩
    -- A loop that stops at once has compared what it is to compare.
    have hstop : (tests = true ∧ s.mem p = 0) ∨ num.toNat = 1 ∨ s.mem q ≠ s.mem p →
        (PrefixEq tests s.mem p q num.toNat ↔ s.mem (byteAt p 0) = s.mem (byteAt q 0)) := by
      intro hwhy
      constructor
      · exact fun h => h 0 (by omega) fun j hj => absurd hj (Nat.not_lt_zero j)
      · intro heq i hi hnonzero
        rcases Nat.eq_zero_or_pos i with rfl | hpos
        · exact heq
        · rw [byteAt_zero, byteAt_zero] at heq
          have hfirst := hnonzero 0 hpos
          rw [byteAt_zero] at hfirst
          rcases hwhy with hzero | hone | hne
          · exact absurd hzero.2 (hfirst hzero.1)
          · omega
          · exact absurd heq.symm hne
    have hround : ∀ fuel ≥ num.toNat, ∃ fuel', fuel = fuel' + 1 ∧ (num - 1).toNat ≤ fuel' :=
      fun fuel hfuel => ⟨fuel - 1, by omega, by omega⟩
    by_cases hzero : tests = true ∧ s.mem p = 0
    · refine ⟨s.test tests p, 0, by omega, test_mem s tests p, fun fuel hfuel => ?_, hstop (.inl hzero), fun a ha =>
        (htested a ha).imp id fun h => hzeroth a (.inl h)⟩
      obtain ⟨fuel, rfl, -⟩ := hround fuel hfuel
      rw [byteAt_zero, byteAt_zero]
      exact if_pos (test_mem s tests p ▸ hzero)
    · by_cases hgo : num - 1 ≠ 0 ∧ s.mem q = s.mem p
      · obtain ⟨s', k, hk, hmem, hloop, hiff, hloads⟩ :=
          ih (p := p + 1) (q := q + 1) (s := ((s.test tests p).load q).load p) hgo.1 (by omega)
        have hsame : (((s.test tests p).load q).load p).mem = s.mem := test_mem s tests p
        simp only [byteAt_succ] at hloop hiff hloads
        rw [hsame] at hmem hiff
        refine ⟨s', k + 1, by omega, hmem, fun fuel hfuel => ?_, Iff.trans ⟨fun h => ?_, fun h => ?_⟩ hiff, ?_⟩
        · obtain ⟨fuel, rfl, hless⟩ := hround fuel hfuel
          rw [← hloop fuel hless]
          exact (if_neg (test_mem s tests p ▸ hzero)).trans (if_pos (test_mem s tests p ▸ hgo))
        · intro i hi hnonzero
          rw [byteAt_succ, byteAt_succ]
          refine h (i + 1) (by omega) fun j hj htests => ?_
          cases j with
          | zero => exact fun hp => hzero ⟨htests, byteAt_zero p ▸ hp⟩
          | succ j => exact byteAt_succ p j ▸ hnonzero j (by omega) htests
        · intro i hi hnonzero
          cases i with
          | zero => rw [byteAt_zero, byteAt_zero, hgo.2]
          | succ i =>
            have hi' := h i (by omega) fun j hj htests => (byteAt_succ p j).symm ▸ hnonzero (j + 1) (by omega) htests
            rwa [byteAt_succ, byteAt_succ] at hi'
        · intro a ha
          rcases hloads a ha with hold | ⟨i, hi, hat⟩
          · exact (hboth a hold).imp id (hzeroth a)
          · exact .inr ⟨i + 1, by omega, hat⟩
      · refine ⟨((s.test tests p).load q).load p, 0, by omega, test_mem s tests p, fun fuel hfuel => ?_, hstop ?_,
          fun a ha => (hboth a ha).imp id (hzeroth a)⟩
        · obtain ⟨fuel, rfl, -⟩ := hround fuel hfuel
          rw [byteAt_zero, byteAt_zero]
          exact (if_neg (test_mem s tests p ▸ hzero)).trans (if_neg (test_mem s tests p ▸ hgo))
        · rcases Classical.not_and_iff_not_or_not.mp hgo with hone | hne
          · exact .inr (.inl (toNat_eq_one hnum (not_not.mp hone)))
          · exact .inr (.inr hne)

/-! ## The routines -/

theorem sub_eq_zero_iff (x y : Byte) : x - y = 0 ↔ x = y := by
  constructor
  · intro h
    rw [← BitVec.sub_add_cancel x y, h]
    exact BitVec.zero_add y
  · rintro rfl
    exact BitVec.sub_self x

theorem setWidth_eq_zero_iff : ∀ x : Byte, x.setWidth 32 = 0 ↔ x = 0 := by decide +kernel

theorem signExtend_eq_zero_iff : ∀ x : Byte, x.signExtend 32 = 0 ↔ x = 0 := by decide +kernel

/-- After a copy without its zero, the string is there when the zero was. -/
theorem copy_string_iff (hfits : len < 2 ^ 32) (hapart : Apart dst src len len) (hzero : s.mem (byteAt src len) = 0) :
    (∀ i ≤ len, (s.copy len dst src).mem (byteAt dst i) = s.mem (byteAt src i)) ↔ s.mem (byteAt dst len) = 0 := by
  have hlast : (s.copy len dst src).mem (byteAt dst len) = s.mem (byteAt dst len) :=
    copy_outside fun i hi heq => Nat.ne_of_gt hi (byteAt_inj hfits (by omega) heq)
  constructor
  · intro h
    rw [← hlast, h len (Nat.le_refl len), hzero]
  · intro h i hi
    rcases Nat.lt_or_eq_of_le hi with hlt | rfl
    · exact copy_mem (Nat.le_of_lt hfits) hapart hlt
    · rw [hlast, h, hzero]

theorem strcpy_iff (mem : Addr → Byte) (dst src : Addr) :
    Meets mem (.strcpy dst src) ↔ Meetable mem (.strcpy dst src) := by
  refine forall_congr' fun len => imp_congr_right fun hstr => imp_congr_right fun hapart => ?_
  have hreturns : Returns (fun fuel => strcpyLoop fuel dst src (start mem))
      (((start mem).copy len dst src).load (byteAt src len)) :=
    ⟨len + 1, fun fuel hfuel => strcpyLoop_eq hstr.nonzero hstr.zero (hapart.mono (Nat.le_succ _) (Nat.le_refl _)) hfuel⟩
  have hiff := copy_string_iff (s := start mem) hstr.fits (hapart.mono (Nat.le_succ _) (Nat.le_succ _)) hstr.zero
  constructor
  · rintro ⟨s, hs, hcopied⟩
    obtain rfl := hs.unique hreturns
    exact hiff.mp hcopied
  · intro h
    exact ⟨_, hreturns, hiff.mpr h⟩

theorem strncpy_iff (mem : Addr → Byte) (dst src num : Addr) :
    Meets mem (.strncpy dst src num) ↔ Meetable mem (.strncpy dst src num) := by
  refine forall_congr' fun len => imp_congr_right fun hstr => imp_congr_right fun hapart => ?_
  by_cases hnum : num = 0
  · subst hnum
    constructor
    · rintro ⟨s, ⟨n, hs⟩, -, hstores⟩
      refine ⟨fun _ => ?_, fun hlt => absurd hlt (Nat.not_lt_zero len)⟩
      by_contra hlen
      have hfirst := hstr.nonzero 0 (Nat.pos_of_ne_zero hlen)
      rw [byteAt_zero] at hfirst
      exact copyLoop_zero (fun h => hfirst h.2) (hs (n + 1) (Nat.le_succ n)) hstores
    · rintro ⟨hlen, -⟩
      obtain rfl := hlen rfl
      have hzero := hstr.zero
      rw [byteAt_zero] at hzero
      refine ⟨(start mem).load src, ⟨1, fun fuel hfuel => ?_⟩, fun i hi => absurd hi (Nat.not_lt_zero i), fun a ha =>
        absurd ha List.not_mem_nil⟩
      obtain ⟨fuel, rfl⟩ := Nat.exists_eq_succ_of_ne_zero (Nat.ne_of_gt hfuel)
      exact if_pos ⟨rfl, hzero⟩
  · have hlt := num.isLt
    have hreturns : Returns (fun fuel => strncpy fuel dst src num (start mem)) (if len < num.toNat then
        ((start mem).copy len dst src).load (byteAt src len) else (start mem).copy num.toNat dst src) :=
      ⟨len + 1, fun fuel hfuel => copyLoop_eq (fun i hi _ h => hstr.nonzero i hi h.2) (fun _ => ⟨rfl, hstr.zero⟩) hnum
        hapart (Nat.le_trans (Nat.min_le_left _ _) hfuel)⟩
    by_cases hlen : len < num.toNat
    · rw [if_pos hlen] at hreturns
      have hiff := copy_string_iff (s := start mem) hstr.fits (hapart.mono (by omega) (by omega)) hstr.zero
      constructor
      · rintro ⟨s, hs, hcopied, -⟩
        obtain rfl := hs.unique hreturns
        exact ⟨fun h => absurd h hnum, fun _ => hiff.mp fun i hi => hcopied i (by omega) hi⟩
      · rintro ⟨-, hzero⟩
        refine ⟨_, hreturns, fun i _ hi => hiff.mpr (hzero hlen) i hi, fun a ha => ?_⟩
        obtain ⟨i, hi, heq⟩ := (copy_touched.1 a ha).resolve_left List.not_mem_nil
        exact ⟨i, by omega, heq⟩
    · rw [if_neg hlen] at hreturns
      refine iff_of_true ⟨_, hreturns, fun i hi _ => ?_, fun a ha => ?_⟩ ⟨fun h => absurd h hnum, fun h => absurd h hlen⟩
      · exact copy_mem (Nat.le_of_lt hlt) (hapart.mono (Nat.le_refl _) (by omega)) hi
      · exact (copy_touched.1 a ha).resolve_left List.not_mem_nil

theorem copies_iff (mem : Addr → Byte) (dst src n : Addr) :
    Copies mem (fun fuel => copyLoop false fuel n dst src (start mem)) dst src n ↔ n ≠ 0 := by
  constructor
  · rintro h rfl
    obtain ⟨s, ⟨m, hs⟩, -, hstores, -⟩ := h fun i hi => absurd hi (Nat.not_lt_zero i)
    exact copyLoop_zero (fun h => Bool.false_ne_true h.1) (hs (m + 1) (Nat.le_succ m)) hstores
  · intro hn hapart
    have hreturns : Returns (fun fuel => copyLoop false fuel n dst src (start mem)) ((start mem).copy n.toNat dst src) := by
      refine ⟨n.toNat, fun fuel hfuel => ?_⟩
      refine (copyLoop_eq (fun _ _ _ h => Bool.false_ne_true h.1) (fun h => absurd h (Nat.lt_irrefl n.toNat)) hn
        (hapart.mono (Nat.le_refl _) (Nat.min_le_right _ _)) (Nat.le_trans (Nat.min_le_right _ _) hfuel)).trans ?_
      rw [if_neg (Nat.lt_irrefl _)]
    exact ⟨_, hreturns, fun i hi => copy_mem (Nat.le_of_lt n.isLt) hapart hi,
      fun a ha => (copy_touched.1 a ha).resolve_left List.not_mem_nil,
      fun a ha => (copy_touched.2 a ha).resolve_left List.not_mem_nil⟩

/-- A loop that compares gives zero exactly for equal operands. -/
theorem compares_of_ne {extend : Byte → BitVec 32} (hextend : ∀ x, extend x = 0 ↔ x = 0) (hnum : num ≠ 0) :
    Compares tests mem (fun fuel => (compareLoop tests fuel num p q (start mem)).map (difference extend)) p q num := by
  obtain ⟨s, k, hk, hmem, hloop, hiff, hloads⟩ :=
    compareLoop_spec (p := p) (q := q) (s := start mem) tests hnum
  refine ⟨_, _, ⟨num.toNat, fun fuel hfuel => congrArg (Option.map (difference extend)) (hloop fuel hfuel)⟩, ?_, ?_⟩
  · rw [hextend, sub_eq_zero_iff, hmem]
    exact hiff.symm
  · intro a ha
    simp only [Machine.load, List.mem_append, List.mem_singleton] at ha
    rcases ha with (hold | rfl) | rfl
    · exact (hloads a hold).resolve_left List.not_mem_nil
    · exact ⟨k, hk, .inl rfl⟩
    · exact ⟨k, hk, .inr rfl⟩

theorem memcmp_iff (mem : Addr → Byte) (ptr1 ptr2 num : Addr) : Meets mem (.memcmp ptr1 ptr2 num) ↔ num ≠ 0 := by
  constructor
  · rintro ⟨s, r, ⟨n, hs⟩, -, hloads⟩ rfl
    obtain ⟨rfl, -⟩ := Prod.mk.inj (Option.some.inj (hs n (Nat.le_refl n)))
    obtain ⟨i, hi, -⟩ := hloads _ (List.mem_append_right _ (List.mem_singleton.mpr rfl))
    exact absurd hi (Nat.not_lt_zero i)
  · intro hnum
    simp only [Meets, memcmp, if_neg hnum]
    exact compares_of_ne setWidth_eq_zero_iff hnum

theorem strncmp_iff (mem : Addr → Byte) (p q num : Addr) : Meets mem (.strncmp p q num) ↔ num ≠ 0 := by
  constructor
  · rintro ⟨s, r, ⟨n, hs⟩, -, hloads⟩ rfl
    obtain ⟨r', hr', heq⟩ := Option.map_eq_some_iff.mp (hs (n + 1) (Nat.le_succ n))
    obtain ⟨rfl, -⟩ := Prod.mk.inj heq
    obtain ⟨i, hi, -⟩ := hloads _ (List.mem_append_right _ (List.mem_singleton.mpr rfl))
    exact absurd hi (Nat.not_lt_zero i)
  · exact compares_of_ne signExtend_eq_zero_iff

/-- For every memory and every count, a routine meets its contract exactly when the count is not zero and, for a
copied string that fits, the terminating zero is in its place before. -/
theorem string_routines_iff (mem : Addr → Byte) (call : Call) : Meets mem call ↔ Meetable mem call := by
  cases call with
  | strcpy dst src => exact strcpy_iff mem dst src
  | strncpy dst src num => exact strncpy_iff mem dst src num
  | memcmp ptr1 ptr2 num => exact memcmp_iff mem ptr1 ptr2 num
  | strncmp string1 string2 num => exact strncmp_iff mem string1 string2 num
  | memcpyFromfs fs dst src n => exact copies_iff mem dst (fs + src) n
  | memcpyTofs fs dst src n => exact copies_iff mem (fs + dst) src n

/-- A copy of the empty string leaves what has been there, and a comparison of no bytes looks at two. -/
theorem strcpy_without_zero : ¬ Meets (fun a => if a = 4 then 0 else 1) (.strcpy 8 4) ∧
    ¬ Meets (fun _ => 0) (.memcmp 8 4 0) := by
  constructor
  · intro h
    have hstr : IsString (fun a => if a = 4 then 0 else 1) 4 0 := by
      constructor
      · decide
      · exact fun i hi => absurd hi (Nat.not_lt_zero i)
      · rfl
    have hapart : Apart 8 4 1 1 := by
      intro i hi j hj
      obtain rfl : i = 0 := by omega
      obtain rfl : j = 0 := by omega
      decide
    have hzero := (strcpy_iff _ 8 4).mp h 0 hstr hapart
    exact absurd hzero (by decide)
  · intro h
    exact (memcmp_iff _ 8 4 0).mp h rfl

end Mario.StringOps
