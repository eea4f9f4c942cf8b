import Mario.Kernel.SignalFrame
import Mario.Kernel.Signals

/-!
# Back to the interrupted program

`do_signal` stacks one frame for each signal that is handled. The frames stand in the memory
below each other, each with the entry of the handler of the frame above it as the place to go
back to, and with the mask of blocked signals as it was before. When the handlers leave the
frames alone, the calls of `do_sigreturn` undo the frames one by one.
-/

namespace Mario.Kernel

open Mario.Lib Mario.Lib.Bytes

/-! ## One frame -/

/-- The instructions behind a frame. -/
def returnCode : List (BitVec 8) := [0x58, 0xb8, 0x77, 0, 0, 0, 0xcd, 0x80]

/-- A frame is in the memory. -/
structure Framed (mem : Bytes) (frame : Word) (words : List Word) : Prop where
  word : ∀ i (h : i < words.length), get32 mem (off frame (4 * i)) = words[i]
  code : ∀ i (h : i < returnCode.length), mem (off frame (96 + i)) = returnCode[i]

variable {mem mem' : Bytes} {frame fp eip oldMask : Word} {tr : TrapFrame} {thread : Thread}
  {nr : ℕ} {words : List Word}

theorem frameWords_length : (frameWords frame fp eip tr thread nr oldMask).length = 24 := rfl

theorem Framed.congr (h : Framed mem frame words) (hlen : words.length = 24)
    (hsame : ∀ d < 104, mem' (off frame d) = mem (off frame d)) : Framed mem' frame words := by
  constructor
  · intro i hi
    rw [← h.word i hi]
    apply get32_congr
    intro j hj
    exact hsame _ (by omega)
  · intro i hi
    have hcode : returnCode.length = 8 := rfl
    rw [← h.code i hi]
    exact hsame _ (by omega)

/-- Bytes of the code, which is written with three overlapping words. -/
theorem setupFrame_code (mem : Bytes) (frame : Word) {i : ℕ} (hi : i < 8) :
    put32 (put32 (put32 mem (off frame 96) 0x0000b858) (off frame 98) sysSigreturn) (off frame 100)
      0x80cd0000 (off frame (96 + i)) = returnCode[i] := by
  rw [put32_off _ frame _ (by omega) (by omega), put32_off _ frame _ (by omega) (by omega),
    put32_off _ frame _ (by omega) (by omega)]
  obtain rfl | rfl | rfl | rfl | rfl | rfl | rfl | rfl :
      i = 0 ∨ i = 1 ∨ i = 2 ∨ i = 3 ∨ i = 4 ∨ i = 5 ∨ i = 6 ∨ i = 7 := by omega
  all_goals rfl

theorem setupFrame_framed (fp eip : Word) (tr : TrapFrame) (thread : Thread) (nr : ℕ)
    (oldMask : Word) (mem : Bytes) : Framed (setupFrame fp eip tr thread nr oldMask mem).1 (fp - 128)
      (frameWords (fp - 128) fp eip tr thread nr oldMask) := by
  unfold setupFrame
  dsimp only
  generalize fp - 128 = frame
  constructor
  · intro i hi
    have hlen : (frameWords frame fp eip tr thread nr oldMask).length = 24 := frameWords_length
    have hword := get32_putWords (a := frame) (e := 0) mem (by omega) hi
    rw [off_zero, Nat.zero_add] at hword
    rw [← hword]
    apply get32_congr
    intro j hj
    rw [put32_other _ frame _ (by omega) (by omega) (by omega),
      put32_other _ frame _ (by omega) (by omega) (by omega),
      put32_other _ frame _ (by omega) (by omega) (by omega)]
  · intro i hi
    exact setupFrame_code _ frame hi

theorem setupFrame_other (fp eip : Word) (tr : TrapFrame) (thread : Thread) (nr : ℕ)
    (oldMask : Word) (mem : Bytes) {d : ℕ} (hlow : 104 ≤ d) (hd : d < 2 ^ 32) :
    (setupFrame fp eip tr thread nr oldMask mem).1 (off (fp - 128) d) = mem (off (fp - 128) d) := by
  unfold setupFrame
  dsimp only
  generalize fp - 128 = frame
  have hlen : (frameWords frame fp eip tr thread nr oldMask).length = 24 := frameWords_length
  have hwords := putWords_other (e := 0) mem frame
    (frameWords frame fp eip tr thread nr oldMask) hd (by omega) (by omega)
  rw [off_zero] at hwords
  rw [put32_other _ frame _ hd (by omega) (by omega), put32_other _ frame _ hd (by omega) (by omega),
    put32_other _ frame _ hd (by omega) (by omega), hwords]

/-! ## Back from one handler -/

theorem readContext_framed (h : Framed mem frame (frameWords frame fp eip tr thread nr oldMask)) :
    readContext mem (off frame 8) =
      { gs := tr.gs, fs := tr.fs, es := tr.es, ds := tr.ds, edi := tr.edi, esi := tr.esi
        ebp := tr.ebp, esp := fp, ebx := tr.ebx, edx := tr.edx, ecx := tr.ecx, eax := tr.eax
        eip := eip, cs := tr.cs, eflags := tr.eflags, ss := tr.ss, oldMask := oldMask } := by
  have hword : ∀ i (hi : i < 24), get32 mem (off frame (4 * i)) =
      (frameWords frame fp eip tr thread nr oldMask)[i] := h.word
  have hshort : ∀ s : BitVec 16, (s.setWidth 32).setWidth 16 = s := by
    intro s
    exact BitVec.setWidth_setWidth_of_le s (by decide) |>.trans (BitVec.setWidth_eq s)
  unfold readContext
  simp only [off_off, get16_eq]
  rw [show 8 + 0 = 4 * 2 from rfl, show 8 + 4 = 4 * 3 from rfl, show 8 + 8 = 4 * 4 from rfl,
    show 8 + 12 = 4 * 5 from rfl, show 8 + 16 = 4 * 6 from rfl, show 8 + 20 = 4 * 7 from rfl,
    show 8 + 24 = 4 * 8 from rfl, show 8 + 28 = 4 * 9 from rfl, show 8 + 32 = 4 * 10 from rfl,
    show 8 + 36 = 4 * 11 from rfl, show 8 + 40 = 4 * 12 from rfl, show 8 + 44 = 4 * 13 from rfl,
    show 8 + 56 = 4 * 16 from rfl, show 8 + 60 = 4 * 17 from rfl, show 8 + 64 = 4 * 18 from rfl,
    show 8 + 72 = 4 * 20 from rfl, show 8 + 80 = 4 * 22 from rfl]
  rw [hword 2 (by decide), hword 3 (by decide), hword 4 (by decide), hword 5 (by decide),
    hword 6 (by decide), hword 7 (by decide), hword 8 (by decide), hword 9 (by decide),
    hword 10 (by decide), hword 11 (by decide), hword 12 (by decide), hword 13 (by decide),
    hword 16 (by decide), hword 17 (by decide), hword 18 (by decide), hword 20 (by decide),
    hword 22 (by decide)]
  simp only [frameWords, List.getElem_cons_succ, List.getElem_cons_zero, hshort]

/-- The code behind a frame makes the system call `sigreturn` with the context on the stack. -/
theorem handlerReturn_framed {r : HandlerRun} (h : Framed r.mem frame (frameWords frame fp eip tr thread nr oldMask)) :
    handlerReturn r frame = some { r.regs with
      eax := sysSigreturn, eip := off frame 104, esp := off frame 8, errorCode := sysSigreturn } := by
  have hreturn : get32 r.mem frame = off frame 96 := by
    have hfirst := h.word 0 (by rw [frameWords_length]; decide)
    rwa [Nat.mul_zero, off_zero] at hfirst
  have hbyte : ∀ i (hi : i < 8), r.mem (off frame (96 + i)) = returnCode[i] := h.code
  have hnumber : get32 r.mem (off frame 98) = sysSigreturn := by
    apply get32_eq
    intro i hi
    rw [off_off, show 98 + i = 96 + (2 + i) by omega, hbyte (2 + i) (by omega)]
    obtain rfl | rfl | rfl | rfl : i = 0 ∨ i = 1 ∨ i = 2 ∨ i = 3 := by omega
    all_goals rfl
  have hpop : ∀ e, insn r.mem ⟨e, off frame 96, off frame 4⟩ =
      some (⟨get32 r.mem (off frame 4), off frame 97, off frame 8⟩, false) := by
    intro e
    have h96 : r.mem (off frame 96) = 0x58 := hbyte 0 (by decide)
    unfold insn
    dsimp only
    rw [if_pos h96, off_off, off_off]
  have hmov : ∀ e, insn r.mem ⟨e, off frame 97, off frame 8⟩ =
      some (⟨sysSigreturn, off frame 102, off frame 8⟩, false) := by
    intro e
    have h97 : r.mem (off frame 97) = 0xb8 := hbyte 1 (by decide)
    unfold insn
    dsimp only
    rw [if_neg (by rw [h97]; decide), if_pos h97, off_off, off_off, hnumber]
  have hint : insn r.mem ⟨sysSigreturn, off frame 102, off frame 8⟩ =
      some (⟨sysSigreturn, off frame 104, off frame 8⟩, true) := by
    have h102 : r.mem (off frame 102) = 0xcd := hbyte 6 (by decide)
    have h103 : r.mem (off (off frame 102) 1) = 0x80 := by
      rw [off_off]
      exact hbyte 7 (by decide)
    unfold insn
    dsimp only
    rw [if_neg (by rw [h102]; decide), if_neg (by rw [h102]; decide), if_pos ⟨h102, h103⟩, off_off]
  unfold handlerReturn
  rw [hreturn]
  simp only [runCode, hpop, hmov, hint, Option.bind_some, Bool.false_eq_true, if_false, if_true, Option.map_some]

/-! ## The stack of frames -/

/-- The frames of some signals, the last one first, over the trap frame `base`. The indices are
the frame pointer, the place to go on at, the mask and the trap frame behind the last frame. -/
inductive Stacked (sas : ℕ → Sigaction) (thread : Thread) (base : TrapFrame) (mask : Word)
    (mem : Bytes) : List ℕ → Word → Word → Word → TrapFrame → Prop
  | nil : Stacked sas thread base mask mem [] base.esp base.eip mask base
  | cons {nrs : List ℕ} {nr : ℕ} {fp eip oldMask : Word} {tr : TrapFrame} :
      Stacked sas thread base mask mem nrs fp eip oldMask tr →
      Framed mem (fp - 128) (frameWords (fp - 128) fp eip tr thread nr oldMask) →
      Stacked sas thread base mask mem (nr :: nrs) (fp - 128) (sas (nr - 1)).saHandler
        (oldMask ||| (sas (nr - 1)).saMask) (userSegments tr)

section

variable {sas : ℕ → Sigaction} {base : TrapFrame} {mask : Word} {nrs : List ℕ}

theorem off_sub_128 (fp : Word) (d : ℕ) : off (fp - 128) (128 + d) = off fp d := by
  rw [← off_off]
  congr 1
  unfold off
  exact BitVec.sub_add_cancel fp 128

/-- The frames stay when the bytes above the frame pointer do. -/
theorem Stacked.congr (h : Stacked sas thread base mask mem nrs fp eip oldMask tr)
    (hsame : ∀ d < 128 * nrs.length, mem' (off fp d) = mem (off fp d)) :
    Stacked sas thread base mask mem' nrs fp eip oldMask tr := by
  induction h with
  | nil => exact Stacked.nil
  | @cons nrs nr fp eip oldMask tr hrest hframed ih =>
    rw [List.length_cons] at hsame
    apply Stacked.cons
    · apply ih
      intro d hd
      rw [← off_sub_128 fp d]
      exact hsame _ (by omega)
    · apply hframed.congr frameWords_length
      intro d hd
      exact hsame d (by omega)

/-- What the calls of `do_sigreturn` bring back. -/
structure Restored (base : TrapFrame) (mask : Word) (m : Machine) : Prop where
  general : m.tr.ebx = base.ebx ∧ m.tr.ecx = base.ecx ∧ m.tr.edx = base.edx ∧
    m.tr.esi = base.esi ∧ m.tr.edi = base.edi ∧ m.tr.ebp = base.ebp
  segments : m.tr.ds = base.ds ∧ m.tr.es = base.es ∧ m.tr.fs = base.fs ∧ m.tr.gs = base.gs ∧
    m.tr.cs = base.cs ∧ m.tr.ss = base.ss
  eip : m.tr.eip = base.eip
  esp : m.tr.esp = base.esp
  eax : m.tr.eax = base.eax
  eflags : m.tr.eflags &&& contextFlags = base.eflags &&& contextFlags
  blocked : m.task.blocked = mask

/-- The handlers leave the frames alone until they return from them. -/
def Unaltered (readable : Word → Bool) (mem : Bytes) : Word → List HandlerRun → Prop
  | _, [] => True
  | frame, r :: rs =>
      ((∀ d < 104, r.mem (off frame d) = mem (off frame d)) ∧ readable (off frame 8) = true) ∧
        Unaltered readable mem (off frame 128) rs

theorem eflags_restored (v w : Word) :
    (v &&& ~~~contextFlags ||| w &&& contextFlags) &&& contextFlags = w &&& contextFlags := by
  apply BitVec.eq_of_getLsbD_eq
  intro i hi
  simp only [BitVec.getLsbD_and, BitVec.getLsbD_or, BitVec.getLsbD_not, hi, decide_true, Bool.true_and]
  cases contextFlags.getLsbD i with
  | false => simp only [Bool.and_false]
  | true => simp only [Bool.not_true, Bool.and_false, Bool.and_true, Bool.false_or]

/-- The handlers run in the order of the frames, and the last `do_sigreturn` restores the trap
frame under them. -/
theorem Stacked.unwind {readable : Word → Bool}
    (h : Stacked sas thread base mask mem nrs fp eip oldMask tr) (hmask : Signals.Blockable mask)
    {m : Machine} {runs : List HandlerRun} (hesp : m.tr.esp = fp) (heip : m.tr.eip = eip)
    (hdone : nrs = [] → Restored base mask m) (hlen : runs.length = nrs.length)
    (hruns : Unaltered readable mem fp runs) :
    ∃ m', runHandlers readable runs m =
        some (nrs.map fun nr => (sas (nr - 1)).saHandler, m') ∧ Restored base mask m' := by
  induction h generalizing m runs with
  | nil =>
    obtain rfl := List.eq_nil_of_length_eq_zero hlen
    exact ⟨m, rfl, hdone rfl⟩
  | @cons nrs nr fp eip oldMask tr hrest hframed ih =>
    cases runs with
    | nil => cases hlen
    | cons r rs =>
      obtain ⟨⟨hsame, hreadable⟩, hothers⟩ := hruns
      have hr := hframed.congr frameWords_length hsame
      have hreturn := handlerReturn_framed hr
      have hcontext := readContext_framed hr
      have hnext : off (fp - 128) 128 = fp := by
        rw [← Nat.add_zero 128, off_sub_128, off_zero]
      rw [hnext] at hothers
      unfold runHandlers
      rw [hesp, hreturn, Option.bind_some, if_pos rfl]
      unfold doSigreturn
      dsimp only
      rw [if_pos hreadable, Option.bind_some, hcontext]
      dsimp only
      generalize hm₁ : (Machine.mk _ _ _ _) = m₁
      have hundone : nrs = [] → Restored base mask m₁ := by
        rintro rfl
        cases hrest
        subst hm₁
        exact ⟨⟨rfl, rfl, rfl, rfl, rfl, rfl⟩, ⟨rfl, rfl, rfl, rfl, rfl, rfl⟩, rfl, rfl, rfl,
          eflags_restored _ _, hmask.and_blockable⟩
      obtain ⟨m', hrun, hrestored⟩ := ih (m := m₁) (by rw [← hm₁]) (by rw [← hm₁]) hundone (Nat.succ.inj hlen) hothers
      rw [hrun, Option.map_some, heip]
      exact ⟨m', rfl, hrestored⟩

theorem enterHandler_sigaction {i : ℕ} (hi : i ≠ nr - 1) (t : Task) :
    (enterHandler nr t).sigaction i = t.sigaction i := by
  unfold enterHandler
  dsimp only
  split_ifs
  · exact Function.update_of_ne hi ..
  · rfl

/-- The second loop stacks a frame for each signal, by induction on the signals. -/
theorem buildFrames_stacked {writable : Word → Bool} {b b' : Build} (done : List ℕ)
    (hnodup : nrs.Nodup) (hpos : ∀ nr ∈ nrs, 0 < nr) (hlen : done.length + nrs.length ≤ 32)
    (hsas : ∀ nr ∈ nrs, b.task.sigaction (nr - 1) = sas (nr - 1))
    (hS : Stacked sas thread base mask b.mem done b.frame b.eip b.oldMask b.tr)
    (hfold : nrs.foldlM (buildFrame writable thread) b = some b') :
    Stacked sas thread base mask b'.mem (nrs.reverse ++ done) b'.frame b'.eip b'.oldMask b'.tr := by
  induction nrs generalizing b done with
  | nil =>
    obtain rfl : b = b' := Option.some.inj hfold
    exact hS
  | cons nr nrs ih =>
    rw [List.nodup_cons] at hnodup
    rw [List.length_cons] at hlen
    rw [List.foldlM_cons] at hfold
    obtain ⟨b₁, hb₁, hrest⟩ := Option.bind_eq_some_iff.mp hfold
    unfold buildFrame at hb₁
    dsimp only at hb₁
    split_ifs at hb₁
    cases hb₁
    rw [List.reverse_cons, List.append_assoc]
    have hnr := hsas nr List.mem_cons_self
    apply ih _ hnodup.2 (fun i hi => hpos i (List.mem_cons_of_mem nr hi))
      (by rw [List.length_append, List.length_singleton]; omega) _ _ hrest
    · intro i hi
      have hne : i - 1 ≠ nr - 1 := by
        have hi0 := hpos i (List.mem_cons_of_mem nr hi)
        have hnr0 := hpos nr List.mem_cons_self
        intro heq
        obtain rfl : i = nr := by omega
        exact hnodup.1 hi
      rw [enterHandler_sigaction hne]
      exact hsas i (List.mem_cons_of_mem nr hi)
    · dsimp only
      rw [hnr]
      apply Stacked.cons _ (setupFrame_framed ..)
      apply hS.congr
      intro d hd
      rw [← off_sub_128]
      exact setupFrame_other _ _ _ _ _ _ _ (by omega) (by omega)

end

/-! ## The signals that are handled -/

theorem postSignal_sigaction (sig : ℕ) (t : Task) :
    (postSignal sig t).sigaction = t.sigaction ∧ (postSignal sig t).blocked = t.blocked := by
  unfold postSignal
  dsimp only
  split_ifs
  · exact ⟨rfl, rfl⟩
  · exact ⟨rfl, rfl⟩
  · exact ⟨rfl, rfl⟩

theorem sendSig_sigaction (sig : ℕ) (t : Task) :
    (sendSig sig t).sigaction = t.sigaction ∧ (sendSig sig t).blocked = t.blocked := by
  unfold sendSig
  split_ifs
  · exact ⟨rfl, rfl⟩
  · exact ⟨rfl, rfl⟩
  · exact ⟨rfl, rfl⟩
  all_goals exact postSignal_sigaction _ _

theorem foldl_sendSig_sigaction (sigs : List ℕ) (t : Task) :
    (sigs.foldl (fun t sig => sendSig sig t) t).sigaction = t.sigaction ∧
      (sigs.foldl (fun t sig => sendSig sig t) t).blocked = t.blocked := by
  induction sigs generalizing t with
  | nil => exact ⟨rfl, rfl⟩
  | cons sig sigs ih =>
    obtain ⟨hsas, hblocked⟩ := sendSig_sigaction sig t
    rw [List.foldl_cons, (ih _).1, (ih _).2]
    exact ⟨hsas, hblocked⟩

/-- A pass takes out the lowest pending signal. It neither changes the actions nor the mask. -/
theorem signalPass_sigaction (t : Task) :
    (signalPass t).1.sigaction = t.sigaction ∧ (signalPass t).1.blocked = t.blocked := by
  unfold signalPass
  cases bsf (t.signal &&& ~~~t.blocked) with
  | none => exact ⟨rfl, rfl⟩
  | some i =>
    dsimp only
    split_ifs
    · exact ⟨rfl, rfl⟩
    · exact ⟨rfl, rfl⟩
    · unfold defaultAction
      split_ifs
      all_goals exact ⟨rfl, rfl⟩
    · exact ⟨rfl, rfl⟩

theorem signalPass_handle {t : Task} {nr : ℕ} (h : (signalPass t).2 = .handle nr) : 0 < nr ∧ nr ≤ 32 := by
  unfold signalPass at h
  cases hbsf : bsf (t.signal &&& ~~~t.blocked) with
  | none =>
    rw [hbsf] at h
    cases h
  | some i =>
    have hi := Signals.bsf_lt hbsf
    rw [hbsf] at h
    dsimp only at h
    split_ifs at h
    · unfold defaultAction at h
      split_ifs at h
    · obtain rfl := Pass.handle.inj h
      omega

/-- What the first loop leaves: the signals that it found, in the order in which it found them,
have interrupted the system call one after the other. -/
theorem collect_spec {passes : List (List ℕ)} {t : Task} {tr : TrapFrame} {toHandle : Word}
    {r : Task × TrapFrame × Word} (h : collect passes t tr toHandle = some r) :
    ∃ found : List ℕ, (∀ nr ∈ found, 0 < nr ∧ nr ≤ 32) ∧ r.1.sigaction = t.sigaction ∧
      r.2.1 = found.foldl (fun tr nr => interrupted (t.sigaction (nr - 1)) tr) tr ∧
      ∀ nr, 0 < nr → nr ≤ 32 → r.2.2.getLsbD (nr - 1) = (toHandle.getLsbD (nr - 1) || decide (nr ∈ found)) := by
  induction passes generalizing t tr toHandle with
  | nil => cases h
  | cons sigs passes ih =>
    unfold collect at h
    dsimp only at h
    obtain ⟨hsent, -⟩ := foldl_sendSig_sigaction sigs t
    generalize sigs.foldl (fun t sig => sendSig sig t) t = u at h hsent
    obtain ⟨hpass, -⟩ := signalPass_sigaction u
    rw [hsent] at hpass
    split at h
    · cases h
      refine ⟨[], fun _ hnr => absurd hnr List.not_mem_nil, hpass, rfl, fun nr _ _ => ?_⟩
      rw [decide_eq_false List.not_mem_nil, Bool.or_false]
    · cases h
    · rename_i nr hhandle
      obtain ⟨found, hrange, hsas, htr, hbits⟩ := ih h
      have hnr := signalPass_handle hhandle
      rw [hpass] at hsas htr
      refine ⟨nr :: found, ?_, hsas, htr, fun i hi hi32 => ?_⟩
      · intro i hi
        rcases List.mem_cons.mp hi with rfl | hi
        · exact hnr
        · exact hrange i hi
      · rw [hbits i hi hi32, BitVec.getLsbD_or, Signals.getLsbD_sigBit hnr.1 hi,
          decide_eq_true hnr.2, Bool.true_and, Bool.or_assoc]
        congr 1
        rw [← Bool.decide_or, decide_eq_decide, List.mem_cons, eq_comm]
    · obtain ⟨found, hrange, hsas, htr, hbits⟩ := ih h
      rw [hpass] at hsas htr
      exact ⟨found, hrange, hsas, htr, hbits⟩

theorem bsf_eq_none {w : Word} (h : bsf w = none) {i : ℕ} (hi : i < 32) : w.getLsbD i = false := by
  have hnot := List.find?_eq_none.mp h i (List.mem_range.mpr hi)
  exact Bool.eq_false_of_not_eq_true hnot

/-- Without other signals the first loop finds what was pending, when all of it is caught. -/
theorem collect_pending {passes : List (List ℕ)} {t : Task} {tr : TrapFrame} {toHandle : Word}
    {r : Task × TrapFrame × Word} (h : collect passes t tr toHandle = some r) (hquiet : ∀ sigs ∈ passes, sigs = [])
    (hcaught : ∀ i < 32, (t.signal &&& ~~~t.blocked).getLsbD i = true →
      (t.sigaction i).saHandler ≠ sigIgn ∧ (t.sigaction i).saHandler ≠ sigDfl) :
    ∀ i < 32, r.2.2.getLsbD i = (toHandle.getLsbD i || (t.signal &&& ~~~t.blocked).getLsbD i) := by
  induction passes generalizing t tr toHandle with
  | nil => cases h
  | cons sigs passes ih =>
    obtain rfl := hquiet sigs List.mem_cons_self
    unfold collect at h
    dsimp only [List.foldl_nil] at h
    cases hbsf : bsf (t.signal &&& ~~~t.blocked) with
    | none =>
      have hpass : signalPass t = (t, .done) := by rw [signalPass, hbsf]
      rw [hpass] at h
      cases h
      intro i hi
      rw [bsf_eq_none hbsf hi, Bool.or_false]
    | some j =>
      have hj := Signals.bsf_lt hbsf
      have hset : (t.signal &&& ~~~t.blocked).getLsbD j = true := List.find?_some hbsf
      obtain ⟨hign, hdfl⟩ := hcaught j hj hset
      have hpass : signalPass t = ({ t with signal := t.signal &&& ~~~BitVec.twoPow 32 j },
          .handle (j + 1)) := by
        rw [signalPass, hbsf]
        dsimp only
        rw [if_neg hign, if_neg hdfl]
      rw [hpass] at h
      dsimp only at h
      have hless : ∀ i < 32, ((t.signal &&& ~~~BitVec.twoPow 32 j) &&& ~~~t.blocked).getLsbD i =
          ((t.signal &&& ~~~t.blocked).getLsbD i && !decide (j = i)) := by
        intro i hi
        simp only [BitVec.getLsbD_and, BitVec.getLsbD_not, BitVec.getLsbD_twoPow, hi, hj, decide_true, Bool.true_and]
        exact Bool.and_right_comm ..
      have hrest := ih h (fun sigs hsigs => hquiet sigs (List.mem_cons_of_mem _ hsigs)) (by
        intro i hi hpending
        rw [hless i hi, Bool.and_eq_true] at hpending
        exact hcaught i hi hpending.1)
      intro i hi
      rw [hrest i hi, hless i hi, BitVec.getLsbD_or, sigBit, BitVec.getLsbD_twoPow,
        Nat.add_sub_cancel, decide_eq_true hj, Bool.true_and]
      by_cases hij : j = i
      · subst hij
        rw [decide_eq_true rfl, hset, Bool.or_true, Bool.true_or]
      · rw [decide_eq_false hij, Bool.or_false, Bool.not_false, Bool.and_true]

/-! ## The interrupted system call -/

/-- What becomes of a system call when handlers with some actions are invoked: it fails with
`EINTR`, or it is made again when all of them allow that. -/
def resumed (sas : List Sigaction) (tr : TrapFrame) : TrapFrame :=
  if tr.errorCode.toInt < 0 then tr
  else if tr.eax = -erestartnohand then { tr with eax := -eintr }
  else if tr.eax = -erestartsys then
    if ∃ sa ∈ sas, sa.saFlags &&& saRestart = 0 then { tr with eax := -eintr }
    else { tr with eax := tr.errorCode, eip := tr.eip - 2 }
  else if tr.eax = -erestartnointr then { tr with eax := tr.errorCode, eip := tr.eip - 2 }
  else tr

theorem interrupted_other {sa : Sigaction} {tr : TrapFrame}
    (h : tr.errorCode.toInt < 0 ∨ tr.eax ≠ -erestartnohand ∧
      (tr.eax = -erestartsys → sa.saFlags &&& saRestart ≠ 0)) : interrupted sa tr = tr := by
  unfold interrupted
  rw [if_neg]
  rintro ⟨hsyscall, heax⟩
  rcases h with hneg | ⟨hnohand, hsys⟩
  · omega
  · rcases heax with heax | ⟨heax, hflags⟩
    · exact hnohand heax
    · exact hsys heax hflags

theorem foldl_interrupted_other {sas : List Sigaction} {tr : TrapFrame}
    (h : ∀ sa ∈ sas, tr.errorCode.toInt < 0 ∨ tr.eax ≠ -erestartnohand ∧
      (tr.eax = -erestartsys → sa.saFlags &&& saRestart ≠ 0)) : sas.foldl (fun tr sa => interrupted sa tr) tr = tr := by
  induction sas with
  | nil => rfl
  | cons sa sas ih =>
    rw [List.foldl_cons, interrupted_other (h sa List.mem_cons_self)]
    exact ih fun sa' hsa' => h sa' (List.mem_cons_of_mem sa hsa')

theorem foldl_interrupted_eintr {sas : List Sigaction} {tr : TrapFrame}
    (h : tr.eax = -eintr) : sas.foldl (fun tr sa => interrupted sa tr) tr = tr := by
  have hnohand : -eintr ≠ -erestartnohand := by decide
  have hsys : -eintr ≠ -erestartsys := by decide
  apply foldl_interrupted_other
  intro sa _
  right
  rw [h]
  exact ⟨hnohand, fun heq => absurd heq hsys⟩

theorem foldl_interrupted (tr : TrapFrame) (sas : List Sigaction) (hsas : sas ≠ []) :
    restart (sas.foldl (fun tr sa => interrupted sa tr) tr) = resumed sas tr := by
  have hintr : ∀ tr : TrapFrame, tr.eax = -eintr → restart tr = tr := by
    intro tr htr
    have hnone : ¬ (-eintr = -erestartnohand ∨ -eintr = -erestartsys ∨ -eintr = -erestartnointr) := by
      decide
    unfold restart
    rw [htr, if_neg fun hall => hnone hall.2]
  unfold resumed
  by_cases hneg : tr.errorCode.toInt < 0
  · rw [if_pos hneg, foldl_interrupted_other fun _ _ => Or.inl hneg]
    unfold restart
    rw [if_neg fun hall => absurd hall.1 (by omega)]
  rw [if_neg hneg]
  have hnonneg : 0 ≤ tr.errorCode.toInt := by omega
  by_cases hnohand : tr.eax = -erestartnohand
  · obtain ⟨sa, rest, rfl⟩ := List.exists_cons_of_ne_nil hsas
    have hfirst : interrupted sa tr = { tr with eax := -eintr } := by
      unfold interrupted
      rw [if_pos ⟨hnonneg, Or.inl hnohand⟩]
    rw [if_pos hnohand, List.foldl_cons, hfirst, foldl_interrupted_eintr rfl, hintr _ rfl]
  rw [if_neg hnohand]
  by_cases hsys : tr.eax = -erestartsys
  · rw [if_pos hsys]
    by_cases hany : ∃ sa ∈ sas, sa.saFlags &&& saRestart = 0
    · rw [if_pos hany]
      -- the handlers before the first one without `SA_RESTART` leave the call alone
      clear hsas
      induction sas with
      | nil =>
        obtain ⟨sa, hsa, -⟩ := hany
        cases hsa
      | cons sa rest ih =>
        rw [List.foldl_cons]
        by_cases hflags : sa.saFlags &&& saRestart = 0
        · have hfirst : interrupted sa tr = { tr with eax := -eintr } := by
            unfold interrupted
            rw [if_pos ⟨hnonneg, Or.inr ⟨hsys, hflags⟩⟩]
          rw [hfirst, foldl_interrupted_eintr rfl, hintr _ rfl]
        · rw [interrupted_other (Or.inr ⟨hnohand, fun _ => hflags⟩)]
          obtain ⟨sa', hsa', hflags'⟩ := hany
          rcases List.mem_cons.mp hsa' with rfl | hsa'
          · exact absurd hflags' hflags
          · exact ih ⟨sa', hsa', hflags'⟩
    · rw [if_neg hany, foldl_interrupted_other]
      · unfold restart
        rw [if_pos ⟨hnonneg, Or.inr (Or.inl hsys)⟩]
      · intro sa hsa
        exact Or.inr ⟨hnohand, fun _ hflags => hany ⟨sa, hsa, hflags⟩⟩
  rw [if_neg hsys, foldl_interrupted_other fun sa _ =>
    Or.inr ⟨hnohand, fun heq => absurd heq hsys⟩]
  unfold restart
  by_cases hnointr : tr.eax = -erestartnointr
  · rw [if_pos hnointr, if_pos ⟨hnonneg, Or.inr (Or.inr hnointr)⟩]
  · rw [if_neg hnointr, if_neg]
    rintro ⟨-, heax | heax | heax⟩
    · exact hnohand heax
    · exact hsys heax
    · exact hnointr heax

theorem resumed_congr {sas sas' : List Sigaction} (h : ∀ sa, sa ∈ sas ↔ sa ∈ sas')
    (tr : TrapFrame) : resumed sas tr = resumed sas' tr := by
  unfold resumed
  simp only [h]

/-! ## The whole of a delivery -/

theorem getLsbD_word_zero (i : ℕ) : (0 : Word).getLsbD i = false := BitVec.getLsbD_zero

theorem mem_handled {toHandle : Word} {nr : ℕ} :
    nr ∈ handled toHandle ↔ 0 < nr ∧ nr ≤ 32 ∧ toHandle.getLsbD (nr - 1) = true := by
  unfold handled
  rw [List.mem_filter, List.mem_map]
  constructor
  · rintro ⟨⟨i, hi, rfl⟩, hbit⟩
    have := List.mem_range.mp hi
    exact ⟨by omega, by omega, hbit⟩
  · rintro ⟨hpos, hle, hbit⟩
    exact ⟨⟨nr - 1, List.mem_range.mpr (by omega), by omega⟩, hbit⟩

theorem handled_sorted (toHandle : Word) : (handled toHandle).Pairwise (· < ·) := by
  unfold handled
  apply List.Pairwise.filter
  rw [List.pairwise_map]
  exact List.pairwise_lt_range.imp fun h => Nat.succ_lt_succ h

theorem handled_length (toHandle : Word) : (handled toHandle).length ≤ 32 := by
  unfold handled
  refine (List.length_filter_le ..).trans ?_
  rw [List.length_map, List.length_range]

/-- Handlers that leave their frames alone bring back the trap frame and the mask. The frames are
built in the order of the signal numbers, so the handlers run in the opposite order. -/
theorem sigreturn_restores (writable readable : Word → Bool) (passes : List (List ℕ))
    (oldMask : Word) (m m₁ : Machine) (hmask : Signals.Blockable oldMask)
    (hsignal : doSignal writable passes oldMask m = some (m₁, true)) :
    ∃ nrs : List ℕ, nrs ≠ [] ∧ nrs.Pairwise (· < ·) ∧
      ((∀ sigs ∈ passes, sigs = []) →
        (∀ i < 32, (m.task.signal &&& ~~~m.task.blocked).getLsbD i = true →
          (m.task.sigaction i).saHandler ≠ sigIgn ∧ (m.task.sigaction i).saHandler ≠ sigDfl) →
        ∀ nr, nr ∈ nrs ↔ 0 < nr ∧ nr ≤ 32 ∧
          (m.task.signal &&& ~~~m.task.blocked).getLsbD (nr - 1) = true) ∧
      ∀ runs : List HandlerRun, runs.length = nrs.length →
        Unaltered readable m₁.mem m₁.tr.esp runs →
        ∃ m₂, runHandlers readable runs m₁ =
            some (nrs.reverse.map fun nr => (m.task.sigaction (nr - 1)).saHandler, m₂) ∧
          Restored (resumed (nrs.map fun nr => m.task.sigaction (nr - 1)) m.tr) oldMask m₂ := by
  obtain ⟨⟨t, tr, toHandle⟩, hcollect, hrest⟩ := Option.bind_eq_some_iff.mp hsignal
  dsimp only at hrest
  by_cases hzero : toHandle = 0
  · rw [if_pos hzero] at hrest
    cases congrArg Prod.snd (Option.some.inj hrest)
  rw [if_neg hzero] at hrest
  obtain ⟨b, hfold, hb⟩ := Option.map_eq_some_iff.mp hrest
  obtain rfl : _ = m₁ := congrArg Prod.fst hb
  obtain ⟨found, hrange, hsas, htr, hbits⟩ := collect_spec hcollect
  dsimp only at hsas htr hbits
  have hmem : ∀ nr, nr ∈ handled toHandle ↔ nr ∈ found := by
    intro nr
    rw [mem_handled]
    constructor
    · rintro ⟨hpos, hle, hbit⟩
      rw [hbits nr hpos hle] at hbit
      simpa using hbit
    · intro hnr
      obtain ⟨hpos, hle⟩ := hrange nr hnr
      refine ⟨hpos, hle, ?_⟩
      rw [hbits nr hpos hle, decide_eq_true hnr, Bool.or_true]
  have hne : handled toHandle ≠ [] := by
    intro hnil
    apply hzero
    apply BitVec.eq_of_getLsbD_eq
    intro i hi
    by_contra hbit
    have hin : i + 1 ∈ handled toHandle := by
      rw [mem_handled]
      refine ⟨Nat.succ_pos i, hi, ?_⟩
      rw [getLsbD_word_zero] at hbit
      exact eq_true_of_ne_false hbit
    rw [hnil] at hin
    cases hin
  have hresumed : restart tr = resumed ((handled toHandle).map fun nr => m.task.sigaction (nr - 1))
      m.tr := by
    obtain ⟨nr, hnr⟩ := List.exists_mem_of_ne_nil _ hne
    have hfound : found ≠ [] := List.ne_nil_of_mem ((hmem nr).mp hnr)
    have hfoldl := foldl_interrupted m.tr (found.map fun nr => m.task.sigaction (nr - 1))
      (by rwa [ne_eq, List.map_eq_nil_iff])
    rw [List.foldl_map, ← htr] at hfoldl
    rw [hfoldl]
    apply resumed_congr
    intro sa
    rw [List.mem_map, List.mem_map]
    simp only [hmem]
  have hnodup : (handled toHandle).Nodup := (handled_sorted toHandle).imp fun h => Nat.ne_of_lt h
  have hstack := buildFrames_stacked [] hnodup (fun nr hnr => (mem_handled.mp hnr).1)
    (by rw [List.length_nil, Nat.zero_add]; exact handled_length toHandle)
    (fun nr _ => congrFun hsas (nr - 1)) Stacked.nil hfold
  rw [List.append_nil, hresumed] at hstack
  refine ⟨handled toHandle, hne, handled_sorted toHandle, ?_, ?_⟩
  · intro hquiet hcaught nr
    rw [mem_handled]
    constructor
    · rintro ⟨hpos, hle, hbit⟩
      have hpending := collect_pending hcollect hquiet hcaught (nr - 1) (by omega)
      rw [getLsbD_word_zero, Bool.false_or] at hpending
      exact ⟨hpos, hle, hpending ▸ hbit⟩
    · rintro ⟨hpos, hle, hbit⟩
      have hpending := collect_pending hcollect hquiet hcaught (nr - 1) (by omega)
      rw [getLsbD_word_zero, Bool.false_or] at hpending
      exact ⟨hpos, hle, hpending.trans hbit⟩
  · intro runs hlen hruns
    apply hstack.unwind hmask rfl rfl
    · intro hnil
      exact absurd (List.reverse_eq_nil_iff.mp hnil) hne
    · rw [List.length_reverse]
      exact hlen
    · exact hruns

/-- Two signals with handlers are pending at the end of a system call. -/
def interruptedMachine : Machine :=
  { task :=
      { Signals.bootTask with
        signal := sigBit 10 ||| sigBit 12
        sigaction := fun i => ⟨0x1000 + BitVec.ofNat 32 i, saRestart, 0, sigBit (i + 1)⟩ }
    thread := ⟨0, 0, 0⟩
    mem := fun _ => 0
    tr :=
      { ebx := 1, ecx := 2, edx := 3, esi := 4, edi := 5, ebp := 6, eax := -erestartsys, ds := userDs
        es := userDs, fs := userDs, gs := 0, errorCode := 3, eip := 0x8000, cs := userCs
        eflags := 0x246, esp := 0x9000, ss := userDs } }

theorem interruptedMachine_signal :
    ((doSignal (fun _ => true) [[], [], []] 0 interruptedMachine).map Prod.snd) = some true := by
  decide +kernel

theorem unaltered_replicate (mem : Bytes) (r : HandlerRun) (hmem : r.mem = mem) (n : ℕ)
    (frame : Word) : Unaltered (fun _ => true) mem frame (List.replicate n r) := by
  induction n generalizing frame with
  | zero => trivial
  | succ n ih => exact ⟨⟨fun d _ => by rw [hmem], rfl⟩, ih _⟩

/-- The handlers of two signals run on two frames, and the machine is as it was before. -/
theorem sigreturn_restores_two :
    ∃ (nrs : List ℕ) (m₁ m₂ : Machine) (runs : List HandlerRun),
      doSignal (fun _ => true) [[], [], []] 0 interruptedMachine = some (m₁, true) ∧
      (∀ nr, nr ∈ nrs ↔ nr = 10 ∨ nr = 12) ∧
      runHandlers (fun _ => true) runs m₁ = some (nrs.reverse.map fun nr =>
        (interruptedMachine.task.sigaction (nr - 1)).saHandler, m₂) ∧
      m₂.tr.ebx = 1 ∧ m₂.tr.esp = 0x9000 ∧ m₂.task.blocked = 0 := by
  obtain ⟨⟨m₁, caught⟩, hsignal, hcaught⟩ := Option.map_eq_some_iff.mp interruptedMachine_signal
  obtain rfl : caught = true := hcaught
  obtain ⟨nrs, -, -, hnrs, hruns⟩ := sigreturn_restores (fun _ => true) (fun _ => true) [[], [], []] 0
    interruptedMachine m₁ Signals.Blockable.zero hsignal
  obtain ⟨m₂, hrun, hrestored⟩ := hruns
    (List.replicate nrs.length ⟨m₁.task, m₁.mem, interruptedMachine.tr⟩) List.length_replicate
    (unaltered_replicate m₁.mem _ rfl _ _)
  refine ⟨nrs, m₁, m₂, _, hsignal, ?_, hrun, ?_⟩
  · intro nr
    rw [hnrs (by decide) (by decide +kernel)]
    have hbits : ∀ nr ≤ 32, (0 < nr ∧ nr ≤ 32 ∧ (interruptedMachine.task.signal &&&
        ~~~interruptedMachine.task.blocked).getLsbD (nr - 1) = true) ↔ nr = 10 ∨ nr = 12 := by
      decide +kernel
    by_cases hle : nr ≤ 32
    · exact hbits nr hle
    · omega
  · have hresumed : ∀ sas, (resumed sas interruptedMachine.tr).ebx = 1 ∧
        (resumed sas interruptedMachine.tr).esp = 0x9000 := by
      intro sas
      unfold resumed
      split_ifs
      all_goals exact ⟨rfl, rfl⟩
    exact ⟨hrestored.general.1.trans (hresumed _).1, hrestored.esp.trans (hresumed _).2,
      hrestored.blocked⟩

end Mario.Kernel
