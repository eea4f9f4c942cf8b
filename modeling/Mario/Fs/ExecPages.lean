import Mario.Fs.Execve

/-!
# The argument pages of a call

What copying the strings does with the page frames. A string that fills a page, which only the
strings before the first shorter one can do, makes `putname` free the frame behind its own: its own
frame stays allocated for good, and the other one may be handed out a second time.
-/

namespace Mario.Fs.Exec

open Mario.Lib Mario.Lib.Bytes Mario.Mm Function

variable {u : UserSpace} {used : ℕ → Bool} {g g₀ l : ℕ} {p : Word} {x x' : Args}

/-! ## Copying a string -/

theorem alloc_none {m m' : Frames} (h : m.alloc = (none, m')) : m'.used = m.used ∧ m'.count = m.count := by
  unfold Frames.alloc at h
  split at h
  · cases h
    exact ⟨rfl, rfl⟩
  · cases h
    exact ⟨rfl, rfl⟩
  · split_ifs at h
    · cases h
      exact ⟨rfl, rfl⟩
    · cases h

theorem Frames.alloc_answers {m m' : Frames} (h : m.alloc = (some g, m')) : m.answers = some g :: m'.answers := by
  unfold Frames.alloc at h
  split at h
  · cases h
  · cases h
  · rename_i a l hl
    split_ifs at h
    · cases h
    · cases h
      exact hl

theorem Frames.getZeroPage_none {m m' : Frames} (h : m.getZeroPage = (none, m')) : m'.used = m.used := by
  unfold Frames.getZeroPage at h
  rcases halloc : m.alloc with ⟨_ | q, m₁⟩
  · rw [halloc] at h
    cases h
    exact (alloc_none halloc).1
  · rw [halloc] at h
    cases h

theorem Frames.getZeroPage_some {m m' : Frames} (h : m.getZeroPage = (some g, m')) :
    m.used g = false ∧ m'.used = update m.used g true ∧ m'.count g = 1 ∧ m.answers = some g :: m'.answers := by
  unfold Frames.getZeroPage at h
  rcases halloc : m.alloc with ⟨_ | q, m₁⟩
  · rw [halloc] at h
    cases h
  · rw [halloc] at h
    obtain ⟨hfree, -, hused, -⟩ := Frames.alloc_spec halloc
    have hanswers := Frames.alloc_answers halloc
    cases h
    exact ⟨hfree, hused, update_self .., hanswers⟩

theorem update_update_false (h : used g = false) : update (update used g true) g false = used := by
  rw [update_idem, ← h, update_eq_self]

theorem getname_error {m m' : Frames} {err : ℤ} (h : getname u p m = (.error err, m')) :
    m'.used = m.used ∧ m'.count = m.count := by
  unfold getname at h
  rcases hmax : getMaxFilename u p with e | i
  · rw [hmax] at h
    cases h
    exact ⟨rfl, rfl⟩
  · rw [hmax] at h
    dsimp only at h
    by_cases hnul : u.mem p = 0
    · rw [if_pos hnul] at h
      cases h
      exact ⟨rfl, rfl⟩
    · rw [if_neg hnul] at h
      rcases halloc : m.alloc with ⟨_ | g, m₁⟩
      · rw [halloc] at h
        cases h
        exact alloc_none halloc
      · obtain ⟨hfree, -, hused, hcount⟩ := Frames.alloc_spec halloc
        rw [halloc] at h
        dsimp only at h
        rcases hread : readName u.mem ((if i = 0 then pageSize else i) - 1) (u.mem p) (off p 1)
          with _ | str
        · rw [hread] at h
          cases h
          simp only [Frames.free, hused, hcount, and_true]
          exact update_update_false hfree
        · rw [hread] at h
          cases h

/-- What a string that fills a page does: its frame `g` stays, the next one is freed, and `q` is the
new argument page. -/
structure Fill (x : Args) (g : ℕ) (q : Option ℕ) (x' : Args) : Prop where
  unused : x.frames.used g = false
  new : ∀ a ∈ q, x.frames.used a = false ∧ a ≠ g
  used : ∀ k, x'.frames.used k = true ↔ k ≠ g + 1 ∧ (x.frames.used k = true ∨ k = g ∨ k ∈ q)
  argPage : ∀ i, x'.argPage i = if i = x.argP / pageSize + 1 ∧ q.isSome then q else x.argPage i
  argP : x'.argP = x.argP + pageSize

/-- What `copy_one_arg` does. -/
inductive Copied (u : UserSpace) (p : Word) (x : Args) : Except ℤ Bool → Args → Prop
  /-- The string is empty. -/
  | skipped : getname u p x.frames = (.error (-enoent), x.frames) → Copied u p x (.ok false) x
  | failed {err e : ℤ} {x' : Args} : (getname u p x.frames).1 = .error err → err ≠ -enoent →
      x'.argPage = x.argPage → x'.argP = x.argP → x'.frames.used = x.frames.used →
      x'.frames.count = x.frames.count → Copied u p x (.error e) x'
  /-- The string ends within the page. -/
  | short {g : ℕ} {str : List Byte} {x' : Args} : (getname u p x.frames).1 = .ok (g, str) →
      x.argP % pageSize + (str.length + 1) < pageSize → x'.argPage = x.argPage →
      x'.argP = x.argP + (str.length + 1) → x'.frames.used = x.frames.used →
      x'.frames.count = x.frames.count → Copied u p x (.ok true) x'
  /-- The string fills a page, and there is no further one. -/
  | full {g : ℕ} {str : List Byte} {e : ℤ} {x' : Args} : (getname u p x.frames).1 = .ok (g, str) →
      str.length = pageSize - 1 → x.argP % pageSize = 0 → Fill x g none x' → Copied u p x (.error e) x'
  | filled {g q : ℕ} {str : List Byte} {x' : Args} : (getname u p x.frames).1 = .ok (g, str) →
      str.length = pageSize - 1 → x.argP % pageSize = 0 → Fill x g (some q) x' →
      x.argP / pageSize ≠ maxArgPages - 1 →
      x.frames.answers = some g :: some q :: x'.frames.answers → Copied u p x (.ok true) x'

theorem div_add_short {a n : ℕ} (h : a % pageSize + n < pageSize) : (a + n) / pageSize = a / pageSize := by
  unfold pageSize at *
  omega

theorem pageMask_mod_add_pageSize (a : ℕ) : pageMask (a % pageSize + pageSize) = pageSize :=
  pageMask_add_pageSize (Nat.mod_lt _ (by decide))

/-- `page_free` is given a page only when the string begins and ends with its page. -/
theorem pageFree_aligned {a len : ℕ} (hlen : len ≤ pageSize) (hlong : pageSize ≤ a % pageSize + len)
    (haligned : (g * pageSize + (pageSize - a % pageSize)) % pageSize = 0) :
    a % pageSize = 0 ∧ len = pageSize := by
  rw [Nat.mul_add_mod_self_right] at haligned
  have hlt : a % pageSize < pageSize := Nat.mod_lt _ (by decide)
  have hzero : a % pageSize = 0 := by
    by_contra hpos
    rw [Nat.mod_eq_of_lt (by omega)] at haligned
    omega
  omega

theorem copied {r : Except ℤ Bool} (hcopy : copyOneArg u p x = some (r, x')) : Copied u p x r x' := by
  unfold copyOneArg at hcopy
  rcases hname : getname u p x.frames with ⟨err | ⟨g, str⟩, m⟩
  · rw [hname] at hcopy
    obtain ⟨hused, hcount⟩ := getname_error hname
    obtain ⟨rfl, rfl⟩ := Prod.mk.inj (Option.some.inj hcopy)
    by_cases henoent : err = -enoent
    · subst henoent
      obtain ⟨-, rfl⟩ := getname_enoent hname
      rw [if_pos rfl]
      exact .skipped hname
    · rw [if_neg henoent]
      split_ifs
      · exact .failed (by rw [hname]) henoent rfl rfl hused hcount
      · exact .failed (by rw [hname]) henoent rfl rfl hused hcount
  · rw [hname] at hcopy
    obtain ⟨-, -, hlen, m₁, halloc, rfl⟩ := getname_ok hname
    obtain ⟨hfree, -, hused, hcount⟩ := Frames.alloc_spec halloc
    have hanswers := Frames.alloc_answers halloc
    have hread : (getname u p x.frames).1 = .ok (g, str) := by rw [hname]
    obtain ⟨x₁, hput, hr⟩ := Option.map_eq_some_iff.mp hcopy
    obtain ⟨rfl, rfl⟩ := Prod.mk.inj hr
    obtain ⟨m₂, hpage, rfl⟩ := Option.map_eq_some_iff.mp hput
    unfold Frames.pageFree at hpage
    split_ifs at hpage with haligned
    cases hpage
    unfold copyString at haligned ⊢
    simp only [pageMask_mod_add_pageSize] at haligned ⊢
    by_cases hlong : pageSize ≤ x.argP % pageSize + (str.length + 1)
    · have hle : str.length + 1 ≤ pageSize := by
        have hpos : 0 < pageSize := by decide
        omega
      have hnext : (g * pageSize + (pageSize - x.argP % pageSize)) % pageSize = 0 →
          x.argP % pageSize = 0 ∧ str.length + 1 = pageSize ∧
            (g * pageSize + (pageSize - x.argP % pageSize)) / pageSize = g + 1 := by
        intro haligned
        obtain ⟨hzero, hfull⟩ := pageFree_aligned hle hlong haligned
        refine ⟨hzero, hfull, ?_⟩
        rw [hzero, Nat.sub_zero, ← Nat.succ_mul]
        exact Nat.mul_div_cancel _ (by decide)
      rw [if_pos hlong] at haligned ⊢
      generalize hm : (m₁.putString g str).memcpy _ _ _ _ _ = m at haligned ⊢
      have hused₁ : m.used = update x.frames.used g true := by
        rw [← hm]
        exact hused
      have hanswers₁ : m.answers = m₁.answers := by rw [← hm]; rfl
      have hnone : ∀ (m' : Frames) {y : Args}, m'.used = m.used → y.frames = m'.free (g + 1) →
          y.argPage = x.argPage → y.argP = x.argP + pageSize → Fill x g none y := by
        intro m' y hm' hframes hargPage hargP
        refine ⟨hfree, fun a ha => (by cases ha), fun k => ?_, fun i => by simp [hargPage], hargP⟩
        rw [hframes]
        simp only [Frames.free, hm', hused₁, update_apply]
        grind
      by_cases hlast : x.argP / pageSize = maxArgPages - 1
      · rw [if_pos hlast] at haligned ⊢
        obtain ⟨hzero, hfull, hframe⟩ := hnext haligned
        dsimp only
        rw [hframe, hzero]
        exact .full hread (by omega) hzero (hnone m rfl rfl rfl rfl)
      · rw [if_neg hlast] at haligned ⊢
        rcases hq : m.getZeroPage with ⟨_ | q, m'⟩
        · rw [hq] at haligned
          obtain ⟨hzero, hfull, hframe⟩ := hnext haligned
          dsimp only
          rw [hframe, hzero]
          exact .full hread (by omega) hzero (hnone m' (Frames.getZeroPage_none hq) rfl rfl rfl)
        · rw [hq] at haligned
          obtain ⟨hzero, hfull, hframe⟩ := hnext haligned
          obtain ⟨hqfree, hqused, -, hqanswers⟩ := Frames.getZeroPage_some hq
          dsimp only
          rw [hframe, hzero]
          rw [hused₁, update_apply] at hqfree
          refine Copied.filled hread (by omega) hzero (show Fill x g (some q) _ from ⟨hfree, fun a ha => ?_, fun k => ?_, fun i => ?_, ?_⟩) hlast ?_
          · cases ha
            grind
          · simp only [Frames.free, Frames.memcpy, hqused, hused₁, update_apply]
            grind
          · simp [update_apply]
          · dsimp only
            omega
          · simp only [Frames.free, Frames.memcpy]
            rw [hanswers, ← hanswers₁, hqanswers]
    · rw [if_neg hlong] at haligned ⊢
      refine .short hread (Nat.lt_of_not_le hlong) rfl rfl ?_ ?_
      · simp only [Frames.free, Frames.memcpy, Frames.putString, hused, Nat.mul_div_cancel g (show 0 < pageSize by decide)]
        exact update_update_false hfree
      · simp only [Frames.free, Frames.memcpy, Frames.putString, hcount]

/-! ## The first string that fills a page -/

/-- `getname` reads a string that fills a page. -/
def FillsPage (u : UserSpace) (m : Frames) (p : Word) : Prop :=
  ∃ g str, (getname u p m).1 = .ok (g, str) ∧ str.length = pageSize - 1

/-- An entry of an array of pointers that can be read and is not the end. -/
def Entry (u : UserSpace) (arg : Word) : Prop := verifyRead u arg.toNat 4 = true ∧ get32 u.mem arg ≠ 0

/-- The first string of an array that is copied fills a page. -/
inductive FirstFills (u : UserSpace) (m : Frames) : Word → Prop
  | here {arg : Word} : Entry u arg → FillsPage u m (get32 u.mem arg) → FirstFills u m arg
  | next {arg : Word} : Entry u arg → (getname u (get32 u.mem arg) m).1 = .error (-enoent) →
      FirstFills u m (off arg 4) → FirstFills u m arg

/-- No string of an array is copied, and its end is reached. -/
inductive NoString (u : UserSpace) (m : Frames) : Word → Prop
  | nil {arg : Word} : verifyRead u arg.toNat 4 = true → get32 u.mem arg = 0 → NoString u m arg
  | next {arg : Word} : Entry u arg → (getname u (get32 u.mem arg) m).1 = .error (-enoent) →
      NoString u m (off arg 4) → NoString u m arg

theorem firstFills_iff {m : Frames} {arg : Word} (hentry : Entry u arg) :
    FirstFills u m arg ↔ FillsPage u m (get32 u.mem arg) ∨
      (getname u (get32 u.mem arg) m).1 = .error (-enoent) ∧ FirstFills u m (off arg 4) := by
  constructor
  · intro h
    cases h with
    | here _ hfill => exact Or.inl hfill
    | next _ hname hrest => exact Or.inr ⟨hname, hrest⟩
  · rintro (hfill | ⟨hname, hrest⟩)
    · exact .here hentry hfill
    · exact .next hentry hname hrest

theorem noString_iff {m : Frames} {arg : Word} (hentry : Entry u arg) :
    NoString u m arg ↔ (getname u (get32 u.mem arg) m).1 = .error (-enoent) ∧ NoString u m (off arg 4) := by
  constructor
  · intro h
    cases h with
    | nil _ hnull => exact absurd hnull hentry.2
    | next _ hname hrest => exact ⟨hname, hrest⟩
  · rintro ⟨hname, hrest⟩
    exact .next hentry hname hrest

/-- The first string that `prep_args` copies fills its page. -/
def FillsFirst (u : UserSpace) (argv envp : Word) (m : Frames) : Prop :=
  ∃ g m₁, m.getZeroPage = (some g, m₁) ∧
    (argv ≠ 0 ∧ FirstFills u m₁ argv ∨
      (argv = 0 ∨ NoString u m₁ argv) ∧ envp ≠ 0 ∧ FirstFills u m₁ envp)

/-! ## Without such a string -/

/-- The call has one argument page, and every name has been given back. -/
structure OnePage (used : ℕ → Bool) (g₀ : ℕ) (x : Args) : Prop where
  free : used g₀ = false
  used : x.frames.used = update used g₀ true
  count : x.frames.count g₀ = 1
  argPage : x.argPage = update (fun _ => none) 0 (some g₀)
  room : x.argP < pageSize

theorem OnePage.step {r : Except ℤ Bool} (h : OnePage used g₀ x) (hshort : x.argP = 0 → ¬ FillsPage u x.frames p)
    (hcopied : Copied u p x r x') : OnePage used g₀ x' ∧ (r = .ok true → 0 < x'.argP) := by
  -- a string that fills a page begins it
  have hnot : ∀ g str, (getname u p x.frames).1 = .ok (g, str) → str.length = pageSize - 1 →
      x.argP % pageSize ≠ 0 := by
    intro g str hname hlen hzero
    rw [Nat.mod_eq_of_lt h.room] at hzero
    exact hshort hzero ⟨g, str, hname, hlen⟩
  cases hcopied with
  | skipped => exact ⟨h, fun hr => by cases hr⟩
  | failed _ _ hargPage hargP hused hcount =>
    refine ⟨⟨h.free, hused.trans h.used, ?_, hargPage.trans h.argPage, hargP ▸ h.room⟩, fun hr => by cases hr⟩
    rw [hcount, h.count]
  | short _ hroom hargPage hargP hused hcount =>
    rw [Nat.mod_eq_of_lt h.room] at hroom
    refine ⟨⟨h.free, hused.trans h.used, ?_, hargPage.trans h.argPage, hargP ▸ hroom⟩, fun _ => by omega⟩
    rw [hcount, h.count]
  | full hname hlen hzero => exact absurd hzero (hnot _ _ hname hlen)
  | filled hname hlen hzero => exact absurd hzero (hnot _ _ hname hlen)

/-- Behind a first string nothing fills the page. -/
theorem OnePage.loop {fuel n : ℕ} {arg : Word} {r : Except ℤ ℕ} (h : OnePage used g₀ x) (hpos : 0 < x.argP)
    (hloop : copyArgsLoop u fuel arg n x = some (r, x')) : OnePage used g₀ x' ∧ 0 < x'.argP := by
  induction fuel generalizing arg n x with
  | zero => cases hloop
  | succ fuel ih =>
    rw [copyArgsLoop] at hloop
    split_ifs at hloop
    · cases hloop
      exact ⟨h, hpos⟩
    · obtain ⟨⟨r₁, x₁⟩, hcopy, hrest⟩ := Option.bind_eq_some_iff.mp hloop
      have hcopied := copied hcopy
      obtain ⟨h₁, -⟩ := h.step (fun hzero => by omega) hcopied
      have hpos₁ : 0 < x₁.argP := by
        cases hcopied with
        | skipped => exact hpos
        | failed _ _ _ hargP => omega
        | short _ _ _ hargP => omega
        | full _ _ _ hfill => rw [hfill.argP]; omega
        | filled _ _ _ hfill => rw [hfill.argP]; omega
      cases r₁ with
      | error err =>
        cases hrest
        exact ⟨h₁, hpos₁⟩
      | ok counted => exact ih h₁ hpos₁ hrest
    · cases hloop
      exact ⟨h, hpos⟩

/-! ## A leaked frame -/

/-- The frame `l` is used and no argument page, and the frames before it are as they should be. -/
structure Leak (used : ℕ → Bool) (l : ℕ) (x : Args) : Prop where
  free : used l = false
  stays : x.frames.used l = true
  apart : ∀ i, x.argPage i ≠ some l
  below : ∀ k < l, (x.frames.used k = true ↔ used k = true ∨ ∃ i, x.argPage i = some k)
  behind : ∀ i, x.argP / pageSize < i → x.argPage i = none

theorem Fill.mem_argPage {q : Option ℕ} (h : Fill x g q x') (hbehind : ∀ i, x.argP / pageSize < i → x.argPage i = none)
    (k : ℕ) : (∃ i, x'.argPage i = some k) ↔ (∃ i, x.argPage i = some k) ∨ q = some k := by
  have hnext := hbehind (x.argP / pageSize + 1) (Nat.lt_succ_self _)
  constructor
  · rintro ⟨i, hi⟩
    rw [h.argPage] at hi
    split_ifs at hi with hnew
    · exact Or.inr hi
    · exact Or.inl ⟨i, hi⟩
  · rintro (⟨i, hi⟩ | rfl)
    · refine ⟨i, ?_⟩
      rw [h.argPage, if_neg, hi]
      rintro ⟨rfl, -⟩
      rw [hnext] at hi
      cases hi
    · exact ⟨x.argP / pageSize + 1, by rw [h.argPage, if_pos ⟨rfl, rfl⟩]⟩

theorem Fill.behind {q : Option ℕ} (h : Fill x g q x') (hbehind : ∀ i, x.argP / pageSize < i → x.argPage i = none)
    (i : ℕ) (hi : x'.argP / pageSize < i) : x'.argPage i = none := by
  rw [h.argP, Nat.add_div_right _ (by decide)] at hi
  rw [h.argPage, if_neg (by omega)]
  exact hbehind i (by omega)

/-- The frame of a string that fills a page is leaked, or one before it has been. -/
theorem Fill.leak {q : Option ℕ} (h : Fill x g q x') (hbehind : ∀ i, x.argP / pageSize < i → x.argPage i = none)
    (hbelow : ∀ k ≤ g, (x.frames.used k = true ↔ used k = true ∨ ∃ i, x.argPage i = some k)) : Leak used g x' := by
  have hno := (hbelow g le_rfl).not.mp (by rw [h.unused]; decide)
  rw [not_or, Bool.not_eq_true, not_exists] at hno
  refine ⟨hno.1, (h.used g).mpr ⟨by omega, Or.inr (Or.inl rfl)⟩, fun i hi => ?_, fun k hk => ?_, h.behind hbehind⟩
  · rcases (h.mem_argPage hbehind g).mp ⟨i, hi⟩ with ⟨j, hj⟩ | hq
    · exact hno.2 j hj
    · exact (h.new g hq).2 rfl
  · have hne : k ≠ g := hk.ne
    have hnext : k ≠ g + 1 := by omega
    rw [h.used k, h.mem_argPage hbehind k, hbelow k hk.le]
    simp [hne, hnext, or_assoc]

/-- A leaked frame stays when the frame of a later string lies behind it. -/
theorem Fill.keeps {q : Option ℕ} (h : Fill x g q x') (hleak : Leak used l x) (hlt : l < g) : Leak used l x' := by
  refine ⟨hleak.free, (h.used l).mpr ⟨by omega, Or.inl hleak.stays⟩, fun i hi => ?_, fun k hk => ?_,
    h.behind hleak.behind⟩
  · rcases (h.mem_argPage hleak.behind l).mp ⟨i, hi⟩ with ⟨j, hj⟩ | hq
    · exact hleak.apart j hj
    · have hfree := (h.new l hq).1
      rw [hleak.stays] at hfree
      cases hfree
  · have hne : k ≠ g := by omega
    have hnext : k ≠ g + 1 := by omega
    rw [h.used k, h.mem_argPage hleak.behind k, hleak.below k hk]
    simp [hne, hnext, or_assoc]

/-- A call that has leaked a frame has always leaked one. -/
theorem Leak.step {r : Except ℤ Bool} (h : Leak used l x) (hcopied : Copied u p x r x') : ∃ l', Leak used l' x' := by
  -- the lower one of two leaked frames is not freed
  have hfill : ∀ {g q}, Fill x g q x' → ∃ l', Leak used l' x' := by
    intro g q hfill
    rcases lt_trichotomy l g with hlt | rfl | hlt
    · exact ⟨l, hfill.keeps h hlt⟩
    · exact absurd (hfill.unused.symm.trans h.stays) (by decide)
    · exact ⟨g, hfill.leak h.behind fun k hk => h.below k (by omega)⟩
  cases hcopied with
  | skipped => exact ⟨l, h⟩
  | failed _ _ hargPage hargP hused =>
    exact ⟨l, h.free, hused ▸ h.stays, hargPage ▸ h.apart, by rw [hused, hargPage]; exact h.below,
      by rw [hargP, hargPage]; exact h.behind⟩
  | short _ hroom hargPage hargP hused =>
    have hdiv : x'.argP / pageSize = x.argP / pageSize := by
      rw [hargP]
      exact div_add_short hroom
    exact ⟨l, h.free, hused ▸ h.stays, hargPage ▸ h.apart, by rw [hused, hargPage]; exact h.below,
      by rw [hdiv, hargPage]; exact h.behind⟩
  | full _ _ _ h => exact hfill h
  | filled _ _ _ h => exact hfill h

theorem Leak.loop {fuel n : ℕ} {arg : Word} {r : Except ℤ ℕ} (h : Leak used l x)
    (hloop : copyArgsLoop u fuel arg n x = some (r, x')) : ∃ l', Leak used l' x' := by
  induction fuel generalizing arg n x l with
  | zero => cases hloop
  | succ fuel ih =>
    rw [copyArgsLoop] at hloop
    split_ifs at hloop
    · cases hloop
      exact ⟨l, h⟩
    · obtain ⟨⟨r₁, x₁⟩, hcopy, hrest⟩ := Option.bind_eq_some_iff.mp hloop
      obtain ⟨l₁, h₁⟩ := h.step (copied hcopy)
      cases r₁ with
      | error err =>
        cases hrest
        exact ⟨l₁, h₁⟩
      | ok counted => exact ih h₁ hrest
    · cases hloop
      exact ⟨l, h⟩

/-! ## The first string -/

theorem OnePage.leak {q : Option ℕ} (h : OnePage used g₀ x) (hfill : Fill x g q x') : Leak used g x' := by
  refine hfill.leak (fun i hi => ?_) fun k _ => ?_
  · rw [h.argPage, update_of_ne (Nat.ne_of_gt (Nat.zero_lt_of_lt hi))]
  · rw [h.used, h.argPage, update_apply]
    constructor
    · intro hk
      split_ifs at hk with heq
      · exact Or.inr ⟨0, by rw [update_self, heq]⟩
      · exact Or.inl hk
    · rintro (hk | ⟨i, hi⟩)
      · rw [hk, ite_self]
      · rw [update_apply] at hi
        split_ifs at hi
        rw [if_pos (Option.some.inj hi).symm]

/-- What `copy_args` leaves when no string has been copied before. -/
theorem OnePage.start {fuel n : ℕ} {arg : Word} {r : Except ℤ ℕ} (h : OnePage used g₀ x) (hzero : x.argP = 0)
    (hloop : copyArgsLoop u fuel arg n x = some (r, x')) :
    (FirstFills u x.frames arg ∧ ∃ l, Leak used l x') ∨
      ¬ FirstFills u x.frames arg ∧ OnePage used g₀ x' ∧
        (x' = x ∧ NoString u x.frames arg ∧ (∃ k, r = .ok k) ∨
          ¬ NoString u x.frames arg ∧ ∀ k, r = .ok k → 0 < x'.argP) := by
  induction fuel generalizing arg n with
  | zero => cases hloop
  | succ fuel ih =>
    rw [copyArgsLoop] at hloop
    split_ifs at hloop with hverify hnull
    · cases hloop
      refine Or.inr ⟨fun hfirst => ?_, h, Or.inl ⟨rfl, .nil hverify hnull, n, rfl⟩⟩
      cases hfirst with
      | here hentry => exact hentry.2 hnull
      | next hentry => exact hentry.2 hnull
    · obtain ⟨⟨r₁, x₁⟩, hcopy, hrest⟩ := Option.bind_eq_some_iff.mp hloop
      have hentry : Entry u arg := ⟨hverify, hnull⟩
      have hcopied := copied hcopy
      have hstep : (x.argP = 0 → ¬ FillsPage u x.frames (get32 u.mem arg)) →
          OnePage used g₀ x₁ ∧ (r₁ = .ok true → 0 < x₁.argP) := fun hshort => h.step hshort hcopied
      rw [firstFills_iff hentry, noString_iff hentry]
      unfold FillsPage at hstep ⊢
      cases hcopied with
      | skipped hname =>
        simp only [hname, reduceCtorEq, false_and, exists_const, true_and, false_or]
        exact ih hrest
      | failed hname hne =>
        cases hrest
        refine Or.inr ⟨by simp [hname, hne], (hstep (by simp [hname])).1, Or.inr ⟨by simp [hname, hne], ?_⟩⟩
        intro k hk
        cases hk
      | short hname hroom hargPage hargP =>
        rw [hzero, Nat.zero_mod, Nat.zero_add] at hroom
        obtain ⟨h₁, hpos⟩ := hstep (fun _ hfills => by
          obtain ⟨g, str, hname', hlen⟩ := hfills
          obtain ⟨rfl, rfl⟩ := Prod.mk.inj (Except.ok.inj (hname.symm.trans hname'))
          omega)
        obtain ⟨h', hpos'⟩ := h₁.loop (hpos rfl) hrest
        refine Or.inr ⟨?_, h', Or.inr ⟨by simp [hname], fun _ _ => hpos'⟩⟩
        rintro (⟨g, str, hname', hlen⟩ | ⟨hname', -⟩)
        · obtain ⟨rfl, rfl⟩ := Prod.mk.inj (Except.ok.inj (hname.symm.trans hname'))
          omega
        · rw [hname] at hname'
          cases hname'
      | full hname hlen _ hfill =>
        cases hrest
        exact Or.inl ⟨Or.inl ⟨_, _, hname, hlen⟩, _, h.leak hfill⟩
      | filled hname hlen _ hfill =>
        exact Or.inl ⟨Or.inl ⟨_, _, hname, hlen⟩, (h.leak hfill).loop hrest⟩
    · cases hloop
      refine Or.inr ⟨fun hfirst => ?_, h, Or.inr ⟨fun hno => ?_, fun k hk => by cases hk⟩⟩
      · cases hfirst with
        | here hentry => exact hverify hentry.1
        | next hentry => exact hverify hentry.1
      · cases hno with
        | nil hread => exact hverify hread
        | next hentry => exact hverify hentry.1

/-! ## All strings -/

theorem OnePage.copyArgs {fuel : ℕ} {arg : Word} {r : Except ℤ ℕ} (h : OnePage used g₀ x) (hzero : x.argP = 0)
    (hcopy : Exec.copyArgs u fuel arg x = some (r, x')) :
    ((arg ≠ 0 ∧ FirstFills u x.frames arg) ∧ ∃ l, Leak used l x') ∨
      ¬ (arg ≠ 0 ∧ FirstFills u x.frames arg) ∧ OnePage used g₀ x' ∧
        (x' = x ∧ (arg = 0 ∨ NoString u x.frames arg) ∧ (∃ k, r = .ok k) ∨
          ¬ (arg = 0 ∨ NoString u x.frames arg) ∧ ∀ k, r = .ok k → 0 < x'.argP) := by
  unfold Exec.copyArgs at hcopy
  split_ifs at hcopy with harg
  · cases hcopy
    exact Or.inr ⟨fun hfills => hfills.1 harg, h, Or.inl ⟨rfl, Or.inl harg, 0, rfl⟩⟩
  · simpa only [harg, ne_eq, not_false_eq_true, true_and, false_or] using h.start hzero hcopy

theorem Leak.copyArgs {fuel : ℕ} {arg : Word} {r : Except ℤ ℕ} (h : Leak used l x)
    (hcopy : Exec.copyArgs u fuel arg x = some (r, x')) : ∃ l', Leak used l' x' := by
  unfold Exec.copyArgs at hcopy
  split_ifs at hcopy
  · cases hcopy
    exact ⟨l, h⟩
  · exact h.loop hcopy

/-- What `prep_args` leaves: a leaked frame exactly when the first string fills its page. -/
theorem prepArgs_cases {fuel : ℕ} {argv envp : Word} {m : Frames} {r : Except ℤ (ℕ × ℕ)}
    (hprep : prepArgs u fuel argv envp m = some (r, x)) :
    (FillsFirst u argv envp m ∧ ∃ l, Leak m.used l x) ∨
      ¬ FillsFirst u argv envp m ∧ ((∃ g₀, OnePage m.used g₀ x) ∨ tailPages x.argPage = [] ∧ x.frames.used = m.used) := by
  unfold prepArgs at hprep
  unfold FillsFirst
  rcases hzero : m.getZeroPage with ⟨_ | g₀, m₁⟩
  · rw [hzero] at hprep
    cases hprep
    refine Or.inr ⟨?_, Or.inr ⟨rfl, Frames.getZeroPage_none hzero⟩⟩
    rintro ⟨g, m₂, h, -⟩
    cases h
  · rw [hzero] at hprep
    dsimp only at hprep
    obtain ⟨hfree, hused, hcount, -⟩ := Frames.getZeroPage_some hzero
    have hstart : OnePage m.used g₀ ⟨m₁, update (fun _ => none) 0 (some g₀), 0, []⟩ :=
      ⟨hfree, hused, hcount, rfl, Nat.zero_lt_succ _⟩
    have hfills : ∀ Q : Frames → Prop, (∃ g m₂, (some g₀, m₁) = (some g, m₂) ∧ Q m₂) ↔ Q m₁ := fun Q =>
      ⟨fun ⟨g, m₂, heq, h⟩ => by cases heq; exact h, fun h => ⟨g₀, m₁, rfl, h⟩⟩
    rw [hfills fun m₂ => argv ≠ 0 ∧ FirstFills u m₂ argv ∨
      (argv = 0 ∨ NoString u m₂ argv) ∧ envp ≠ 0 ∧ FirstFills u m₂ envp]
    obtain ⟨⟨r₁, x₁⟩, hargv, hrest⟩ := Option.bind_eq_some_iff.mp hprep
    have henv : ∀ argc, r₁ = .ok argc → ∃ r₂, Exec.copyArgs u fuel envp x₁ = some (r₂, x) := by
      rintro argc rfl
      obtain ⟨⟨r₂, x₂⟩, henvp, hlast⟩ := Option.map_eq_some_iff.mp hrest
      cases r₂ with
      | error err => exact ⟨_, (Prod.mk.inj hlast).2 ▸ henvp⟩
      | ok envc => exact ⟨_, (Prod.mk.inj hlast).2 ▸ henvp⟩
    rcases hstart.copyArgs rfl hargv with ⟨hfirst, l, hleak⟩ | ⟨hnot, hone, hend⟩
    · left
      refine ⟨Or.inl hfirst, ?_⟩
      cases r₁ with
      | error err =>
        cases hrest
        exact ⟨l, hleak⟩
      | ok argc =>
        obtain ⟨r₂, henvp⟩ := henv argc rfl
        exact hleak.copyArgs henvp
    · rcases hend with ⟨rfl, hno, argc, rfl⟩ | ⟨hsome, hpos⟩
      · -- nothing has been copied, and the first string is one of the environment
        obtain ⟨r₂, henvp⟩ := henv argc rfl
        rcases hstart.copyArgs rfl henvp with ⟨hfirst, hleak⟩ | ⟨hnot', hone', -⟩
        · exact Or.inl ⟨Or.inr ⟨hno, hfirst⟩, hleak⟩
        · exact Or.inr ⟨fun h => h.elim hnot fun h => hnot' h.2, Or.inl ⟨g₀, hone'⟩⟩
      · refine Or.inr ⟨fun h => h.elim hnot fun h => hsome h.1, Or.inl ⟨g₀, ?_⟩⟩
        cases r₁ with
        | error err =>
          cases hrest
          exact hone
        | ok argc =>
          obtain ⟨r₂, henvp⟩ := henv argc rfl
          unfold Exec.copyArgs at henvp
          split_ifs at henvp
          · cases henvp
            exact hone
          · exact (hone.loop (hpos argc rfl) henvp).1

/-! ## Giving the pages back -/

theorem putPages_used {pages : List ℕ} {m : Frames} (h : l ∉ pages) : (putPages pages m).used l = m.used l := by
  induction pages generalizing m with
  | nil => rfl
  | cons a pages ih =>
    rw [List.mem_cons, not_or] at h
    rw [putPages, List.foldl_cons, ← putPages, ih h.2, Frames.putPage]
    dsimp only
    split_ifs
    · simp only [Frames.free, update_of_ne h.1]
    · rfl

/-- A leaked frame is not given back. -/
theorem Leak.put (h : Leak used l x) : (putPages (tailPages x.argPage) x.frames).used l = true := by
  rw [putPages_used, h.stays]
  intro hl
  obtain ⟨i, -, hi⟩ := List.mem_filterMap.mp hl
  exact h.apart i hi

theorem tailPages_one (g : ℕ) : tailPages (update (fun _ => none) 0 (some g)) = [g] := by
  rfl

theorem OnePage.put (h : OnePage used g₀ x) : (putPages (tailPages x.argPage) x.frames).used = used := by
  rw [h.argPage, tailPages_one]
  simp only [putPages, List.foldl_cons, List.foldl_nil, Frames.putPage, update_self, h.count]
  rw [if_pos (by decide)]
  simp only [Frames.free, h.used]
  exact update_update_false h.free

/-! ## The frames of the argument pages -/

/-- How many strings fill a page before the first that does not. -/
def fills (strs : List (List Byte)) : ℕ := (strs.takeWhile fun str => str.length = pageSize - 1).length

theorem fills_append (strs strs' : List (List Byte)) :
    fills (strs ++ strs') = if fills strs = strs.length then fills strs + fills strs' else fills strs := by
  unfold fills
  rw [List.takeWhile_append]
  split_ifs with hall
  · rw [List.length_append, hall]
  · rfl

/-- What the allocator answers for the argument pages: before each one but the first it has
answered for a string. -/
def pageAnswers (n : ℕ) (answers : List (Option ℕ)) : List (Option ℕ) :=
  (List.range (n + 1)).map fun k => answers.getD (2 * k) none

/-- No frame is handed out for two argument pages. -/
def PagesApart (mem : Bytes) (argv envp : Word) (answers : List (Option ℕ)) : Prop :=
  ∃ args envs, Passed mem argv args ∧ Passed mem envp envs ∧
    (pageAnswers (fills (nonempty (args ++ envs))) answers).Nodup

/-- The argument pages after `i` strings that fill a page. -/
structure Paged (answers : List (Option ℕ)) (i : ℕ) (x : Args) : Prop where
  div : x.argP / pageSize = i
  lt : i < maxArgPages
  page : ∀ k ≤ i, x.argPage k = answers.getD (2 * k) none
  there : ∀ k ≤ i, (x.argPage k).isSome
  behind : ∀ k, i < k → x.argPage k = none
  rest : x.argP = i * pageSize → x.frames.answers = answers.drop (2 * i + 1)

theorem Paged.step {answers : List (Option ℕ)} {i : ℕ} {counted : Bool} (h : Paged answers i x)
    (hcopied : Copied u p x (.ok counted) x') : ∃ str, StringAt u.mem p str ∧
      (str = [] ∧ x' = x ∨
        str ≠ [] ∧ str.length ≠ pageSize - 1 ∧ Paged answers i x' ∧ x'.argP ≠ i * pageSize ∨
        str ≠ [] ∧ str.length = pageSize - 1 ∧ x.argP = i * pageSize ∧
          Paged answers (i + 1) x' ∧ x'.argP = (i + 1) * pageSize) := by
  have hmod := Nat.div_add_mod x.argP pageSize
  have hspec : ∀ {g str}, (getname u p x.frames).1 = .ok (g, str) → StringAt u.mem p str ∧ str ≠ [] := by
    intro g str hname
    have hpair : getname u p x.frames = (.ok (g, str), (getname u p x.frames).2) := Prod.ext hname rfl
    obtain ⟨hstr, hne, -⟩ := getname_ok hpair
    exact ⟨hstr, hne⟩
  rw [h.div] at hmod
  cases hcopied with
  | skipped hname => exact ⟨[], StringAt.empty (getname_enoent hname).1, Or.inl ⟨rfl, rfl⟩⟩
  | short hname hroom hargPage hargP =>
    rename_i g str _ _
    obtain ⟨hstr, hne⟩ := hspec hname
    have hoff : x'.argP ≠ i * pageSize := by
      rw [hargP, Nat.mul_comm]
      omega
    refine ⟨str, hstr, Or.inr (Or.inl ⟨hne, by omega, ⟨?_, h.lt, ?_, ?_, ?_, fun hat => absurd hat hoff⟩, hoff⟩)⟩
    · rw [hargP, div_add_short hroom, h.div]
    · rw [hargPage]; exact h.page
    · rw [hargPage]; exact h.there
    · rw [hargPage]; exact h.behind
  | filled hname hlen hzero hfill hlast hanswers =>
    rename_i g q str
    obtain ⟨hstr, hne⟩ := hspec hname
    have hat : x.argP = i * pageSize := by
      rw [Nat.mul_comm]
      omega
    have hat' : x'.argP = (i + 1) * pageSize := by rw [hfill.argP, hat, Nat.succ_mul]
    have hdrop := h.rest hat
    rw [hanswers] at hdrop
    have hnew : answers.getD (2 * (i + 1)) none = some q := by
      have hget := congrArg (fun l : List (Option ℕ) => l[1]?) hdrop
      simp only [List.getElem?_cons_succ, List.getElem?_cons_zero, List.getElem?_drop] at hget
      rw [List.getD_eq_getElem?_getD, show 2 * (i + 1) = 2 * i + 1 + 1 by omega, ← hget]
      rfl
    refine ⟨str, hstr, Or.inr (Or.inr ⟨hne, hlen, hat, ⟨?_, ?_, fun k hk => ?_, fun k hk => ?_, fun k hk => ?_, fun _ => ?_⟩,
      hat'⟩)⟩
    · rw [hat', Nat.mul_div_cancel _ (by decide)]
    · have hlt := h.lt
      rw [h.div] at hlast
      omega
    · rw [hfill.argPage, h.div]
      split_ifs with hk'
      · rw [hk'.1, hnew]
      · exact h.page k (by simp at hk'; omega)
    · rw [hfill.argPage, h.div]
      split_ifs with hk'
      · rfl
      · exact h.there k (by simp at hk'; omega)
    · rw [hfill.argPage, h.div, if_neg (by omega)]
      exact h.behind k (by omega)
    · have htail := congrArg (List.drop 2) hdrop
      rw [List.drop_drop] at htail
      exact htail

theorem nonempty_cons (str : List Byte) (strs : List (List Byte)) :
    nonempty (str :: strs) = if str = [] then nonempty strs else str :: nonempty strs := by
  unfold nonempty
  rw [List.filter_cons]
  by_cases hstr : str = []
  · simp [hstr]
  · simp [hstr]

theorem fills_cons (str : List Byte) (strs : List (List Byte)) :
    fills (str :: strs) = if str.length = pageSize - 1 then fills strs + 1 else 0 := by
  unfold fills
  rw [List.takeWhile_cons]
  by_cases hstr : str.length = pageSize - 1
  · simp [hstr]
  · simp [hstr]

/-- Behind a string that ends within its page the pages stay. -/
theorem Paged.loop {answers : List (Option ℕ)} {i fuel n k : ℕ} {arg : Word} (h : Paged answers i x)
    (hoff : x.argP ≠ i * pageSize) (hloop : copyArgsLoop u fuel arg n x = some (.ok k, x')) :
    Paged answers i x' ∧ x'.argP ≠ i * pageSize := by
  induction fuel generalizing arg n x with
  | zero => cases hloop
  | succ fuel ih =>
    rw [copyArgsLoop] at hloop
    split_ifs at hloop
    · cases hloop
      exact ⟨h, hoff⟩
    · obtain ⟨⟨r₁, x₁⟩, hcopy, hrest⟩ := Option.bind_eq_some_iff.mp hloop
      cases r₁ with
      | error err => cases hrest
      | ok counted =>
        obtain ⟨str, -, ⟨-, rfl⟩ | ⟨-, -, h₁, hoff₁⟩ | ⟨-, -, hat, -⟩⟩ := h.step (copied hcopy)
        · exact ih h hoff hrest
        · exact ih h₁ hoff₁ hrest
        · exact absurd hat hoff
    · cases hloop

theorem Paged.start {answers : List (Option ℕ)} {i fuel n k : ℕ} {arg : Word} {strs : List (List Byte)}
    (h : Paged answers i x) (hat : x.argP = i * pageSize) (hstrs : StringsFrom u.mem arg strs)
    (hloop : copyArgsLoop u fuel arg n x = some (.ok k, x')) :
    Paged answers (i + fills (nonempty strs)) x' ∧
      (x'.argP = (i + fills (nonempty strs)) * pageSize ↔ fills (nonempty strs) = (nonempty strs).length) := by
  induction fuel generalizing arg n x i strs with
  | zero => cases hloop
  | succ fuel ih =>
    rw [copyArgsLoop] at hloop
    split_ifs at hloop with _ hnull
    · cases hloop
      cases hstrs with
      | nil => exact ⟨h, iff_of_true hat rfl⟩
      | cons hne => exact absurd hnull hne
    · obtain ⟨⟨r₁, x₁⟩, hcopy, hrest⟩ := Option.bind_eq_some_iff.mp hloop
      cases hstrs with
      | nil hend => exact absurd hend hnull
      | cons _ hstr hstrs =>
        cases r₁ with
        | error err => cases hrest
        | ok counted =>
          obtain ⟨str', hstr', hcase⟩ := h.step (copied hcopy)
          obtain rfl := hstr'.unique hstr
          rw [nonempty_cons]
          rcases hcase with ⟨rfl, rfl⟩ | ⟨hne, hlen, h₁, hoff⟩ | ⟨hne, hlen, -, h₁, hat₁⟩
          · rw [if_pos rfl]
            exact ih h hat hstrs hrest
          · obtain ⟨h', hoff'⟩ := h₁.loop hoff hrest
            rw [if_neg hne, fills_cons, if_neg hlen]
            exact ⟨h', iff_of_false hoff' (by simp)⟩
          · obtain ⟨h', hiff⟩ := ih h₁ hat₁ hstrs hrest
            rw [if_neg hne, fills_cons, if_pos hlen, List.length_cons, ← Nat.add_assoc, Nat.add_right_comm,
              Nat.add_right_cancel_iff]
            exact ⟨h', hiff⟩
    · cases hloop

theorem Paged.copyArgs {answers : List (Option ℕ)} {i fuel k : ℕ} {arg : Word} {strs : List (List Byte)}
    (h : Paged answers i x) (hat : x.argP = i * pageSize) (hstrs : Passed u.mem arg strs)
    (hcopy : Exec.copyArgs u fuel arg x = some (.ok k, x')) :
    Paged answers (i + fills (nonempty strs)) x' ∧
      (x'.argP = (i + fills (nonempty strs)) * pageSize ↔ fills (nonempty strs) = (nonempty strs).length) := by
  unfold Exec.copyArgs at hcopy
  unfold Passed at hstrs
  split_ifs at hcopy hstrs
  · cases hcopy
    subst hstrs
    exact ⟨h, iff_of_true hat rfl⟩
  · exact h.start hat hstrs hcopy

/-- The argument pages of a call that has copied all strings. -/
theorem prepArgs_paged {fuel argc envc : ℕ} {argv envp : Word} {m : Frames} {args envs : List (List Byte)}
    (hargs : Passed u.mem argv args) (henvs : Passed u.mem envp envs)
    (hprep : prepArgs u fuel argv envp m = some (.ok (argc, envc), x)) :
    Paged m.answers (fills (nonempty (args ++ envs))) x := by
  unfold prepArgs at hprep
  rcases hzero : m.getZeroPage with ⟨_ | g₀, m₁⟩
  · rw [hzero] at hprep
    cases hprep
  · rw [hzero] at hprep
    dsimp only at hprep
    obtain ⟨-, -, -, hanswers⟩ := Frames.getZeroPage_some hzero
    have hstart : Paged m.answers 0 ⟨m₁, update (fun _ => none) 0 (some g₀), 0, []⟩ := by
      refine ⟨Nat.zero_div _, by decide, fun k hk => ?_, fun k hk => ?_, fun k hk => ?_, fun _ => ?_⟩
      · obtain rfl := Nat.le_zero.mp hk
        dsimp only
        rw [update_self, hanswers]
        rfl
      · obtain rfl := Nat.le_zero.mp hk
        rfl
      · dsimp only
        rw [update_of_ne (Nat.ne_of_gt hk)]
      · rw [hanswers]
        rfl
    obtain ⟨⟨r₁, x₁⟩, hargv, hrest⟩ := Option.bind_eq_some_iff.mp hprep
    cases r₁ with
    | error err => cases hrest
    | ok argc' =>
      obtain ⟨⟨r₂, x₂⟩, henvp, hlast⟩ := Option.map_eq_some_iff.mp hrest
      cases r₂ with
      | error err => cases hlast
      | ok envc' =>
        cases hlast
        obtain ⟨h₁, hiff⟩ := hstart.copyArgs (Nat.zero_mul _).symm hargs hargv
        rw [Nat.zero_add] at h₁ hiff
        rw [nonempty_append, fills_append]
        split_ifs with hall
        · exact (h₁.copyArgs (hiff.mpr hall) henvs henvp).1
        · have hoff := hiff.not.mpr hall
          unfold Exec.copyArgs at henvp
          split_ifs at henvp
          · cases henvp
            exact h₁
          · exact (h₁.loop hoff henvp).1

/-! ## What happens to them -/

theorem argPages_split (argPage : ℕ → Option ℕ) {c : ℕ} (hc : c ≤ maxArgPages) :
    argPages argPage = (List.range c).filterMap argPage ++ argPages fun k => if k < c then none else argPage k := by
  obtain ⟨n, hn⟩ := Nat.exists_eq_add_of_le hc
  unfold argPages
  rw [hn, List.range_add, List.filterMap_append, List.filterMap_append]
  congr 1
  have hfirst : (List.range c).filterMap (fun k => if k < c then none else argPage k) = [] := by
    rw [List.filterMap_eq_nil_iff]
    intro k hk
    rw [if_pos (List.mem_range.mp hk)]
  rw [hfirst, List.nil_append]
  refine List.filterMap_congr fun k hk => ?_
  obtain ⟨j, -, rfl⟩ := List.mem_map.mp hk
  rw [if_neg (by omega)]

/-- The pages before the first that cannot be mapped are mapped. -/
theorem mapArgPages_spec (setPage : ℕ → Bool) (n j : ℕ) (argPage : ℕ → Option ℕ) :
    ∃ c ≤ n, (mapArgPages setPage j n argPage).2.2.map PageEvent.frame =
        (List.range' j c).map (fun k => (argPage k).getD 0) ∧
      (∀ k, (mapArgPages setPage j n argPage).2.1 k = if j ≤ k ∧ k < j + c then none else argPage k) ∧
      ((mapArgPages setPage j n argPage).1 = true → c = n) ∧ (c = 0 ↔ n = 0 ∨ setPage j = false) := by
  induction n generalizing j argPage with
  | zero => exact ⟨0, le_rfl, rfl, fun k => by rw [if_neg (by omega)]; rfl, fun _ => rfl, by simp⟩
  | succ n ih =>
    rw [mapArgPages]
    cases hset : setPage j with
    | false =>
      refine ⟨0, Nat.zero_le _, rfl, fun k => ?_, fun h => (by cases h), by simp⟩
      have hnot : ¬ (j ≤ k ∧ k < j + 0) := by omega
      rw [if_neg hnot]
      rfl
    | true =>
      obtain ⟨c, hc, hframes, hpages, hall, -⟩ := ih (j + 1) (update argPage j none)
      refine ⟨c + 1, Nat.succ_le_succ hc, ?_, fun k => ?_, fun h => congrArg (· + 1) (hall h), by simp⟩
      · simp only [if_true, List.map_cons, PageEvent.frame, hframes, List.range'_succ]
        congr 1
        refine List.map_congr_left fun k hk => ?_
        rw [update_of_ne (by have := (List.mem_range'_1.mp hk).1; omega)]
      · simp only [if_true, hpages]
        by_cases hk : k = j
        · rw [hk, update_self, ite_self, if_pos (by omega)]
        · rw [update_of_ne hk]
          congr 1
          simp only [eq_iff_iff]
          omega

theorem Paged.argPages {answers : List (Option ℕ)} {i : ℕ} (h : Paged answers i x) {c : ℕ} (hc : c ≤ i + 1) :
    (List.range c).filterMap x.argPage = (List.range c).map fun k => (x.argPage k).getD 0 := by
  rw [← List.filterMap_eq_map]
  refine List.filterMap_congr fun k hk => ?_
  have hsome := h.there k (by have := List.mem_range.mp hk; omega)
  obtain ⟨a, ha⟩ := Option.isSome_iff_exists.mp hsome
  rw [Function.comp_apply, ha]
  rfl

theorem Paged.argPages_eq {answers : List (Option ℕ)} {i : ℕ} (h : Paged answers i x) :
    Exec.argPages x.argPage = (List.range (i + 1)).map fun k => (x.argPage k).getD 0 := by
  have hbehind : (fun k => if k < i + 1 then none else x.argPage k) = fun _ => none := by
    funext k
    split_ifs with hk
    · rfl
    · exact h.behind k (by omega)
  have hnone : Exec.argPages (fun _ => none) = [] := rfl
  rw [argPages_split x.argPage (Nat.succ_le_of_lt h.lt), h.argPages le_rfl, hbehind, hnone, List.append_nil]

theorem Paged.nodup_iff {answers : List (Option ℕ)} {i : ℕ} (h : Paged answers i x) :
    (Exec.argPages x.argPage).Nodup ↔ (pageAnswers i answers).Nodup := by
  have hmap : (Exec.argPages x.argPage).map some = pageAnswers i answers := by
    rw [h.argPages_eq, List.map_map]
    refine List.map_congr_left fun k hk => ?_
    have hk : k ≤ i := Nat.le_of_lt_succ (List.mem_range.mp hk)
    obtain ⟨a, ha⟩ := Option.isSome_iff_exists.mp (h.there k hk)
    rw [← h.page k hk, Function.comp_apply, ha]
    rfl
  rw [← hmap, List.nodup_map_iff (Option.some_injective ℕ)]

/-- Each argument page is mapped or released, and that once. -/
def SettledOnce (pages : List ℕ) (events : List PageEvent) : Prop :=
  ∀ g ∈ pages, (events.map PageEvent.frame).count g = 1

/-- Every argument page is mapped or released once exactly when the first of them can be mapped and
they are different frames. -/
theorem Paged.settled_iff {answers : List (Option ℕ)} {i : ℕ} {e : ExecEnv} (h : Paged answers i x) :
    SettledOnce (Exec.argPages x.argPage) (pageEvents e x) ↔ e.setPage 0 = true ∧ (pageAnswers i answers).Nodup := by
  have hnr : x.nrPage = i + 1 := by rw [Args.nrPage, h.div]
  obtain ⟨c, hc, hframes, hpages, hall, hzero⟩ := mapArgPages_spec e.setPage x.nrPage 0 x.argPage
  rw [hnr] at hc
  have hput : ∀ l : List ℕ, (l.map PageEvent.put).map PageEvent.frame = l := fun l => by
    rw [List.map_map]
    exact List.map_id l
  rw [← h.nodup_iff, pageEvents, setupPages]
  generalize mapArgPages e.setPage 0 x.nrPage x.argPage = r at hframes hpages hall
  by_cases hc0 : c = 0
  · -- nothing is mapped, and everything is released twice
    have hset : e.setPage 0 = false := (hzero.mp hc0).resolve_left (by omega)
    have hfail : r.1 = false := by
      by_contra hok
      have := hall (by simpa using hok)
      omega
    have hsame : r.2.1 = x.argPage := by
      funext k
      rw [hpages, if_neg (by omega)]
    rw [hset]
    refine iff_of_false (fun hsettled => ?_) (by simp)
    obtain ⟨a, ha⟩ := Option.isSome_iff_exists.mp (h.there 0 (Nat.zero_le i))
    have hmem : a ∈ Exec.argPages x.argPage := List.mem_filterMap.mpr ⟨0, List.mem_range.mpr (by decide), ha⟩
    have htail : a ∈ tailPages x.argPage := by
      refine List.mem_filterMap.mpr ⟨0, ?_, ha⟩
      rw [maxArgPages, List.range_succ_eq_map, List.takeWhile_cons, ha]
      exact List.mem_cons_self
    have hone := hsettled a hmem
    simp only [hfail, Bool.false_eq_true, false_and, if_false, reduceCtorEq, List.map_append, hput, hsame,
      List.count_append] at hone
    have hfirst := List.count_pos_iff.mpr hmem
    have hsecond := List.count_pos_iff.mpr htail
    omega
  · -- each page is mapped or released, in their order
    have hset : e.setPage 0 = true := by
      by_contra hset
      exact hc0 (hzero.mpr (Or.inr (by simpa using hset)))
    have htail : tailPages r.2.1 = [] := by
      have hfirst : r.2.1 0 = none := by rw [hpages, if_pos ⟨le_rfl, by omega⟩]
      rw [tailPages, maxArgPages, List.range_succ_eq_map, List.takeWhile_cons, hfirst]
      rfl
    have hrest : r.2.1 = fun k => if k < c then none else x.argPage k := by
      funext k
      rw [hpages]
      congr 1
      simp
    have hsplit : Exec.argPages x.argPage = r.2.2.map PageEvent.frame ++ Exec.argPages r.2.1 := by
      rw [hrest, hframes, ← List.range_eq_range', ← h.argPages hc]
      exact argPages_split x.argPage (hc.trans h.lt)
    rw [hset, List.nodup_iff_count_eq_one, SettledOnce]
    simp only [true_and]
    by_cases hok : r.1 = true ∧ e.stackPage = true ∧ e.setStackPage = true
    · have hnone : Exec.argPages r.2.1 = [] := by
        have hbehind : r.2.1 = fun _ => none := by
          funext k
          rw [hpages]
          split_ifs with hk
          · rfl
          · exact h.behind k (by rw [hall hok.1, hnr] at hk; omega)
        rw [hbehind]
        rfl
      rw [hnone, List.append_nil] at hsplit
      simp only [if_pos hok, if_true, List.append_nil, ← hsplit]
    · simp only [if_neg hok, reduceCtorEq, if_false, htail, List.map_nil, List.append_nil, List.map_append, hput,
        ← hsplit]


end Mario.Fs.Exec
