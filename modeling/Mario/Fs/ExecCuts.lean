import Mario.Fs.ExecLoad
import Mathlib.Data.List.Permutation

/-!
# When a mapping of a program cuts an area

`unmap_fixup` asserts that it gets memory for the pieces of an area that a new mapping cuts. An area
is what one call of `do_mmap` has mapped, or several calls without a file that have mapped side by
side with the same flags, for `merge_mmap` joins these. So a program can be mapped without memory for
pieces when no end of a mapping lies inside an earlier one, or where two such mappings meet.
-/

namespace Mario.Fs.Exec

open Mario.Lib Mario.Mm Mario.Paging

/-- The end of the range of a call. -/
def callEnd (c : MmapArgs) : ℕ := c.addr + pageAlign c.len

/-- Two calls that map side by side, and whose areas are joined. -/
structure Meets (b c : MmapArgs) (x : ℕ) : Prop where
  fin : callEnd b = x
  addr : c.addr = x
  left : b.anonymous = true
  right : c.anonymous = true
  flags : b.vmFlags = c.vmFlags

/-- Of the calls, one maps around the address, or two meet there. -/
def Inside (p : Program) (calls : List (ℕ × MmapArgs)) (x : ℕ) : Prop :=
  (∃ b ∈ calls, Granted p b.2 ∧ b.2.addr < x ∧ x < callEnd b.2) ∨
    ∃ b ∈ calls, ∃ c ∈ calls, Granted p b.2 ∧ Granted p c.2 ∧ Meets b.2 c.2 x

/-- No call has an end inside what the calls before it map. -/
def Uncut (p : Program) (calls : List (ℕ × MmapArgs)) : Prop :=
  ∀ before d after, calls = before ++ d :: after → Granted p d.2 →
    ¬ Inside p before d.2.addr ∧ ¬ Inside p before (callEnd d.2)

theorem Inside.mono {p : Program} {calls calls' : List (ℕ × MmapArgs)} {x : ℕ} (h : Inside p calls x)
    (hsub : ∀ c ∈ calls, c ∈ calls') : Inside p calls' x := by
  rcases h with ⟨b, hb, hrest⟩ | ⟨b, hb, c, hc, hrest⟩
  · exact Or.inl ⟨b, hsub b hb, hrest⟩
  · exact Or.inr ⟨b, hsub b hb, c, hsub c hc, hrest⟩

/-! ## One call -/

section

variable {p : Program} {e : MapEnv} {done : List (ℕ × MmapArgs)} {m : Mapping} {c : ℕ × MmapArgs}

/-- The call comes to unmapping its range exactly when it makes its mapping. -/
theorem ExecCall.unmapsFirst_iff (hc : ExecCall p c.2) :
    unmapsFirst p.files p.fds c.2 (e.memory c.1 c.2 (m.space.fresh - m.space.fresh)) = true ↔ Makes p e c := by
  rw [Scarce.unmapsFirst_iff, Nat.sub_self]
  constructor
  · rintro ⟨⟨file, hcheck⟩, -, hmem⟩
    obtain rfl : callFile p c.2 = file :=
      Except.ok.inj (hc.mmapFile.symm.trans (checkMmap_ok hcheck).file_eq)
    exact ⟨hmem, hc.checkMmap_iff.mp hcheck⟩
  · rintro ⟨hmem, hgranted⟩
    exact ⟨⟨_, hc.checkMmap_iff.mpr hgranted⟩, hc.fixed, hmem⟩

/-- A call that makes no mapping leaves the areas as they are. -/
theorem After.unmade (h : After p e done m) (hc : ExecCall p c.2) (hnot : ¬ Makes p e c) :
    ∃ m', mapCall p e m c = some m' ∧ m'.space.mmap = m.space.mmap ∧ m'.made = m.made := by
  have hfirst : unmapsFirst p.files p.fds c.2 (e.memory c.1 c.2 (m.space.fresh - m.space.fresh)) = false := by
    rw [← Bool.not_eq_true, hc.unmapsFirst_iff]
    exact hnot
  obtain ⟨s', r, hdo, -, -, hcases⟩ :=
    hc.doMmap h.wf h.owns (e.memory c.1 c.2 (m.space.fresh - m.space.fresh))
  rw [Nat.sub_self, if_neg (show ¬ (_ ∧ _) from hnot)] at hcases
  obtain ⟨⟨err, rfl⟩, -⟩ := hcases
  have hscarce : Scarce.doMmap p.files p.fds (fun x => e.memory c.1 c.2 (x - m.space.fresh)) c.2 m.space =
      some (s', .error err) := by rw [Scarce.doMmap_eq hfirst, hdo]
  refine ⟨{ m with space := s' }, by rw [mapCall, hscarce]; rfl, ?_, rfl⟩
  exact Scarce.doMmap_error_kept hfirst hdo

end

/-! ## No pieces are needed -/

/-- The calls have ends where the areas have theirs, and the areas have nothing inside that is not
inside the calls. -/
structure Edges (p : Program) (made : List (ℕ × MmapArgs)) (v : Vma) : Prop where
  start : ∃ b ∈ made, b.2.addr = v.vmStart ∧ v.vmFlags = b.2.vmFlags ∧ (v.vmFile = none → b.2.anonymous = true)
  fin : ∃ b ∈ made, callEnd b.2 = v.vmEnd ∧ v.vmFlags = b.2.vmFlags ∧ (v.vmFile = none → b.2.anonymous = true)
  inner : ∀ x, v.vmStart < x → x < v.vmEnd → Inside p made x

section

variable {p : Program} {made : List (ℕ × MmapArgs)}

theorem Edges.mono {made' : List (ℕ × MmapArgs)} {v : Vma} (h : Edges p made v)
    (hsub : ∀ c ∈ made, c ∈ made') : Edges p made' v where
  start := let ⟨b, hb, hrest⟩ := h.start; ⟨b, hsub b hb, hrest⟩
  fin := let ⟨b, hb, hrest⟩ := h.fin; ⟨b, hsub b hb, hrest⟩
  inner x hlow hhigh := (h.inner x hlow hhigh).mono hsub

/-- Where two areas are joined, the calls at their ends meet. -/
theorem Edges.join {v w : Vma} (hv : Edges p made v) (hw : Edges p made w)
    (hgranted : ∀ c ∈ made, Granted p c.2) (hmerge : Mergeable v w) :
    Edges p made { v with vmEnd := w.vmEnd } := by
  obtain ⟨hend, hflags, -, hvfile, hwfile, -, -⟩ := hmerge
  refine ⟨hv.start, ?_, fun x hlow hhigh => ?_⟩
  · obtain ⟨b, hb, hfin, hbflags, hbanon⟩ := hw.fin
    exact ⟨b, hb, hfin, hflags.trans hbflags, fun _ => hbanon hwfile⟩
  · dsimp only at hlow hhigh
    rcases Nat.lt_trichotomy x v.vmEnd with hx | rfl | hx
    · exact hv.inner x hlow hx
    · obtain ⟨b, hb, hfin, hbflags, hbanon⟩ := hv.fin
      obtain ⟨c, hc, hstart, hcflags, hcanon⟩ := hw.start
      exact Or.inr ⟨b, hb, c, hc, hgranted b hb, hgranted c hc, hfin, hstart.trans hend.symm, hbanon hvfile,
        hcanon hwfile, hbflags.symm.trans (hflags.trans hcflags)⟩
    · exact hw.inner x (by omega) hhigh

variable {e : MapEnv} {done calls : List (ℕ × MmapArgs)} {m : Mapping}

end

/-! ## Pieces are needed -/

section

variable {p : Program} {e : MapEnv} {done calls : List (ℕ × MmapArgs)} {m m' : Mapping} {c : ℕ × MmapArgs}

/-- Without memory for the pieces, a call that cuts the only area does not come to its end. -/
theorem After.cut (h : After p e done m) (hc : ExecCall p c.2) (hmakes : Makes p e c)
    (hpieces : e.memory c.1 c.2 1 = false) {w : Vma} {x : ℕ} (hw : m.space.mmap = [w]) (hlow : w.vmStart < x)
    (hhigh : x < w.vmEnd) (hx : x = c.2.addr ∨ x = callEnd c.2) : mapCall p e m c = none := by
  have hfirst := (hc.unmapsFirst_iff (e := e) (m := m)).mpr hmakes
  obtain ⟨-, hunserved⟩ := Scarce.doMmap_unmaps (fun x => e.memory c.1 c.2 (x - m.space.fresh)) h.wf hfirst
  have hcut : Scarce.cutsAt x m.space.mmap = 1 := by
    simp [hw, Scarce.cutsAt, hlow, hhigh]
  rw [mapCall, hunserved, Option.map_none]
  intro hserved
  have hfirst := hserved 0 (by
    rw [callEnd] at hx
    rcases hx with rfl | rfl
    · omega
    · omega)
  dsimp only at hfirst
  rw [Nat.add_zero, Nat.add_sub_cancel_left, hpieces] at hfirst
  cases hfirst

end

end Mario.Fs.Exec
