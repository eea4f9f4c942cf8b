import Mario.Mm.PageInvariant

/-!
# What readers of a file see

A read of a file sees the page cache, and the file itself where nothing is cached.
Writing back a shared area writes the cached pages to the file, so it changes nothing
that a reader can see: an entry of a shared area maps the cached page itself.
-/

namespace Mario.Paging

open Mario.Mm Mario.Lib Function

/-- The byte of a file that a read through the page cache returns. -/
def fileView (m : Memory) (ino off : ℕ) : ℕ :=
  match m.cache.lookup (ino, off / pageSize) with
  | some f => m.data f (off % pageSize)
  | none => fileByte m ino off

/-- The frames have the same bytes, and so have the files for their readers. -/
structure SameView (m m' : Memory) : Prop where
  data : m'.data = m.data
  view : ∀ ino off, fileView m' ino off = fileView m ino off

variable {k : Kernel} {m m' m'' : Memory} {v : Vma} {x y : PageTable × Memory} {P : Proc}

theorem SameView.refl (m : Memory) : SameView m m := ⟨rfl, fun _ _ => rfl⟩

theorem SameView.trans (h : SameView m m') (h' : SameView m' m'') : SameView m m'' :=
  ⟨h'.data.trans h.data, fun ino off => (h'.view ino off).trans (h.view ino off)⟩

/-- A step that leaves the page cache, the files and the cached frames alone. -/
theorem fileView_congr (hcache : m'.cache = m.cache) (hdisk : m'.disk = m.disk) (hsize : m'.size = m.size)
    (hdata : ∀ key f, m.cache.lookup key = some f → m'.data f = m.data f) (ino off : ℕ) :
    fileView m' ino off = fileView m ino off := by
  unfold fileView
  rw [hcache]
  cases hlook : m.cache.lookup (ino, off / pageSize) with
  | some f => simp only [hdata _ f hlook]
  | none => simp only [fileByte, hdisk, hsize]

theorem sameView_putPages (l : List ℕ) (m : Memory) : SameView m (putPages l m) :=
  ⟨rfl, fileView_congr rfl rfl rfl fun _ _ _ => rfl⟩

theorem sameView_refPages (l : List ℕ) (m : Memory) : SameView m (refPages l m) :=
  ⟨rfl, fileView_congr rfl rfl rfl fun _ _ _ => rfl⟩

theorem fileWrite_sameView {ino pos n c : ℕ} (hn : n ≤ pageSize) (hpos : pos % pageSize = 0)
    (hc : m.cache.lookup (ino, pos / pageSize) = some c) : SameView m (fileWrite ino pos (m.data c) n c m) := by
  unfold fileWrite
  split_ifs with hzero
  · exact SameView.refl m
  · have hdata : (update m.data c fun o => if o < n then m.data c o else m.data c o) =
        m.data := by
      simp only [ite_self]
      exact update_eq_self c m.data
    refine ⟨hdata, fun i off => ?_⟩
    unfold fileView
    simp only [hdata]
    cases hlook : m.cache.lookup (i, off / pageSize) with
    | some f => rfl
    | none =>
      -- the bytes that are written are those of a cached page
      simp only [fileByte]
      by_cases hi : i = ino
      · subst hi
        have hout : ¬ (pos ≤ off ∧ off < pos + n) := by
          intro hin
          have hsame : off / pageSize = pos / pageSize := by
            simp only [pageSize] at *
            omega
          rw [hsame, hc] at hlook
          cases hlook
        simp only [update_self, if_neg hout]
        split_ifs <;> first | rfl | omega
      · simp only [update_of_ne hi]

/-! ## Writing back an area -/

/-- The entries of a shared area of a file map the cached pages of the file. -/
def Coherent (k : Kernel) (v : Vma) (x : PageTable × Memory) : Prop :=
  v.vmFlags.shared = true → ∀ f, v.vmFile = some f → ∀ pg pte, v.Covers (pg * pageSize) →
    x.1.lookup pg = some pte → v.pos (pg * pageSize) % pageSize = 0 ∧ ∃ ino, inodeOf k f = some ino ∧
      x.2.cache.lookup (ino, v.pos (pg * pageSize) / pageSize) = some pte.frame

theorem Coherent.synced (h : Coherent k v x) (hsync : Synced x y) : Coherent k v y := by
  intro hshared f hf pg pte' hcovers hpte'
  obtain ⟨pte, hpte, hframe, -⟩ := hsync.entry hpte'
  rw [hframe, hsync.cache]
  exact h hshared f hf pg pte hcovers hpte

theorem ProcOk.coherent (h : ProcOk k m P) (hv : v ∈ P.mmap) : Coherent k v (P.pt, m) := by
  intro hshared f hf pg pte hcovers hpte
  have hi := infoAt_of_mem h.wf.apart hv hcovers
  have hfile : v.info.file = some (f, v.base) := by rw [Vma.info, hf]; rfl
  obtain ⟨i, hi', hback⟩ := h.covered pg pte hpte
  obtain rfl := Option.some.inj (hi.symm.trans hi')
  obtain ⟨ino, hino, hlook⟩ := hback hshared f v.base hfile
  obtain ⟨c, hc⟩ := h.offsets _ _ hi f v.base hfile
  rw [Vma.pos_eq hcovers]
  refine ⟨?_, ino, hino, hlook⟩
  rw [hc]
  simp only [pageSize, wordSize]
  omega

theorem filemapSyncPte_sameView {f pg : ℕ} (n : ℕ) (h : Coherent k v x)
    (hshared : v.vmFlags.shared = true) (hf : v.vmFile = some f)
    (hcovers : v.Covers (pg * pageSize)) : SameView x.2 (filemapSyncPte k f v pg n x).2 := by
  rcases filemapSyncPte_cases k f v pg n x with hx | ⟨pte, ino, c, hpte, hino, hc, hx⟩
  · rw [hx]
    exact SameView.refl x.2
  · rw [hx]
    obtain ⟨hpos, ino', hino', hlook⟩ := h hshared f hf pg pte hcovers hpte
    obtain rfl := Option.some.inj (hino.symm.trans hino')
    obtain rfl := Option.some.inj (hc.symm.trans hlook)
    exact fileWrite_sameView (min_le_right ..) hpos hc

/-- The loop over pages or areas that writes some of them back. -/
theorem sameView_foldl {α : Type*} {step : PageTable × Memory → α → PageTable × Memory}
    {good : PageTable × Memory → Prop} {l : List α} (hsync : ∀ x a, Synced x (step x a))
    (hgood : ∀ x y, good x → Synced x y → good y)
    (hstep : ∀ x, ∀ a ∈ l, good x → SameView x.2 (step x a).2) (hx : good x) : SameView x.2 (l.foldl step x).2 := by
  induction l generalizing x with
  | nil => exact SameView.refl x.2
  | cons a l ih =>
    have hfirst := hstep x a List.mem_cons_self hx
    have hrest := ih (fun y b hb => hstep y b (List.mem_cons_of_mem a hb)) (hgood x _ hx (hsync x a))
    exact hfirst.trans hrest

theorem covers_of_mem_pagesIn {start fin pg : ℕ} (hstart : pageSize ∣ start)
    (hlow : v.vmStart ≤ start) (hhigh : fin ≤ v.vmEnd) (h : pg ∈ pagesIn start fin) : v.Covers (pg * pageSize) := by
  obtain ⟨c, rfl⟩ := hstart
  rw [pagesIn, List.mem_range'_1] at h
  simp only [Vma.Covers, pageSize] at *
  omega

theorem syncArea_sameView {start fin : ℕ} {io : ℕ → ℕ} (h : Coherent k v x)
    (hstart : pageSize ∣ start) (hlow : v.vmStart ≤ start) (hhigh : fin ≤ v.vmEnd) :
    SameView x.2 (syncArea k v start fin io x).2 := by
  rcases syncArea_cases k v start fin io x with hx | ⟨f, hf, hshared, -, hx⟩
  · rw [hx]
    exact SameView.refl x.2
  · rw [hx]
    refine sameView_foldl (fun y pg => filemapSyncPte_synced k f v pg (io pg) y)
      (fun y z hy hyz => Coherent.synced hy hyz) (fun y pg hpg hy => ?_) h
    exact filemapSyncPte_sameView (io pg) hy hshared hf (covers_of_mem_pagesIn hstart hlow hhigh hpg)

/-- All areas of a list are coherent. -/
def AllCoherent (k : Kernel) (l : List Vma) (x : PageTable × Memory) : Prop :=
  ∀ v ∈ l, v.Valid ∧ Coherent k v x

theorem AllCoherent.synced {l : List Vma} (h : AllCoherent k l x) (hsync : Synced x y) :
    AllCoherent k l y := fun v hv => ⟨(h v hv).1, (h v hv).2.synced hsync⟩

theorem AllCoherent.subset {l l' : List Vma} (h : AllCoherent k l x) (hsub : l' ⊆ l) :
    AllCoherent k l' x := fun v hv => h v (hsub hv)

theorem ProcOk.allCoherent (h : ProcOk k m P) : AllCoherent k P.mmap (P.pt, m) :=
  fun v hv => ⟨h.wf.valid v hv, h.coherent hv⟩

theorem closeAreas_sameView {l : List Vma} (io : ℕ → ℕ) (h : AllCoherent k l x) :
    SameView x.2 (closeAreas k io l x).2 := by
  refine sameView_foldl (fun y v => syncArea_synced k v v.vmStart v.vmEnd io y)
    (fun y z hy hyz => AllCoherent.synced hy hyz) (fun y v hv hy => ?_) h
  obtain ⟨hvalid, hcoherent⟩ := hy v hv
  exact syncArea_sameView hcoherent hvalid.startAligned le_rfl le_rfl

private theorem dvd_max {d a b : ℕ} (ha : d ∣ a) (hb : d ∣ b) : d ∣ max a b := by
  rcases max_choice a b with hmax | hmax
  · rwa [hmax]
  · rwa [hmax]

theorem unmapAreas_sameView {addr fin : ℕ} {l : List Vma} (io : ℕ → ℕ → ℕ)
    (h : AllCoherent k l x) (haddr : pageSize ∣ addr) : SameView x.2 (unmapAreas k addr fin io l x).2 := by
  have hsync : ∀ y v, Synced y (if addr ≤ v.vmStart ∧ v.vmEnd ≤ fin then
      syncArea k v v.vmStart v.vmEnd (io 1) (syncArea k v (max addr v.vmStart) (min fin v.vmEnd) (io 0) y)
      else syncArea k v (max addr v.vmStart) (min fin v.vmEnd) (io 0) y) := by
    intro y v
    split_ifs
    · exact (syncArea_synced ..).trans (syncArea_synced ..)
    · exact syncArea_synced ..
  refine sameView_foldl hsync (fun y z hy hyz => AllCoherent.synced hy hyz) (fun y v hv hy => ?_) h
  obtain ⟨hvalid, hcoherent⟩ := hy v hv
  have hfirst : SameView y.2 (syncArea k v (max addr v.vmStart) (min fin v.vmEnd) (io 0) y).2 :=
    syncArea_sameView hcoherent (dvd_max haddr hvalid.startAligned) (le_max_right ..) (min_le_right ..)
  simp only
  split_ifs
  · exact hfirst.trans (syncArea_sameView (hcoherent.synced (syncArea_synced ..)) hvalid.startAligned le_rfl le_rfl)
  · exact hfirst

theorem munmapPages_sameView {addr len : ℕ} {l : List Vma} (io : ℕ → ℕ → ℕ)
    (h : AllCoherent k l x) : SameView x.2 (munmapPages k addr len io l x).2 := by
  rw [munmapPages_eq]
  split_ifs with hidle
  · exact SameView.refl x.2
  · rw [not_or] at hidle
    have haddr : pageSize ∣ addr := by
      have hvalid := hidle.1
      simp only [MunmapInvalid, not_or, not_not] at hvalid
      exact Nat.dvd_of_mod_eq_zero hvalid.1
    have hsub : (unlinkRange addr (addr + pageAlign len) [] l).2 ⊆ l := by
      intro v hv
      have hperm := unlinkRange_perm addr (addr + pageAlign len) [] l
      rw [List.append_nil] at hperm
      exact hperm.mem_iff.mp (List.mem_append_right _ hv)
    exact (unmapAreas_sameView io (h.subset hsub) haddr).trans (sameView_putPages _ _)

theorem msyncAreas_sameView {fin cursor : ℕ} {l : List Vma} (io : ℕ → ℕ) (h : AllCoherent k l x)
    (hcursor : pageSize ∣ cursor) : SameView x.2 (msyncAreas k fin io cursor l x).1.2 := by
  induction l generalizing cursor x with
  | nil => exact SameView.refl x.2
  | cons v l ih =>
    obtain ⟨hvalid, hcoherent⟩ := h v List.mem_cons_self
    have hrest := h.subset (List.subset_cons_self v l)
    have hend := dvd_max hcursor hvalid.endAligned
    unfold msyncAreas
    split_ifs
    · exact SameView.refl x.2
    · have hfirst : SameView x.2 (syncArea k v (max cursor v.vmStart) (min fin v.vmEnd) io x).2 :=
        syncArea_sameView hcoherent (dvd_max hcursor hvalid.startAligned) (le_max_right ..) (min_le_right ..)
      exact hfirst.trans (ih (hrest.synced (syncArea_synced ..)) hend)
    · exact ih hrest hend

end Mario.Paging
