import Mario.Mm.Exec

/-!
# Reference counts of page frames

Every operation moves references between page tables, the page cache and kernel code.
The lemmas about page tables and memory say which references an operation on one page
table turns into which, whoever holds the others; a step of a process then keeps the
counts of the whole system balanced.
-/

namespace Mario.Paging

open Mario.Mm Mario.Lib Function

/-! ## Operations that move no reference -/

/-- The entry without its dirty bit. -/
def Pte.clean (pte : Pte) : Pte := { pte with dirty := false }

/-- Nothing happened beside writes to files and cleared dirty bits. -/
structure Synced (x y : PageTable × Memory) : Prop where
  pool : y.2.pool = x.2.pool
  cache : y.2.cache = x.2.cache
  held : y.2.held = x.2.held
  entries : ∀ pg, (y.1.lookup pg).map Pte.clean = (x.1.lookup pg).map Pte.clean
  perm : (frames y.1).Perm (frames x.1)

theorem Synced.refl (x : PageTable × Memory) : Synced x x :=
  ⟨rfl, rfl, rfl, fun _ => rfl, List.Perm.refl _⟩

theorem Synced.trans {x y z : PageTable × Memory} (h : Synced x y) (h' : Synced y z) :
    Synced x z :=
  ⟨h'.pool.trans h.pool, h'.cache.trans h.cache, h'.held.trans h.held,
    fun pg => (h'.entries pg).trans (h.entries pg), h'.perm.trans h.perm⟩

theorem Synced.users {x y : PageTable × Memory} (h : Synced x y) : y.2.users = x.2.users := by
  rw [Memory.users, Memory.users, h.cache, h.held]

/-- Each step of a loop over a list keeps a reflexive and transitive relation. -/
theorem synced_foldl {α : Type*} {step : PageTable × Memory → α → PageTable × Memory}
    (hstep : ∀ x a, Synced x (step x a)) (l : List α) (x : PageTable × Memory) : Synced x (l.foldl step x) := by
  induction l generalizing x with
  | nil => exact Synced.refl x
  | cons a l ih => exact (hstep x a).trans (ih (step x a))

theorem fileWrite_pool (ino pos : ℕ) (bytes : ℕ → ℕ) (n c : ℕ) (m : Memory) :
    (fileWrite ino pos bytes n c m).pool = m.pool ∧
      (fileWrite ino pos bytes n c m).cache = m.cache ∧ (fileWrite ino pos bytes n c m).held = m.held := by
  unfold fileWrite
  split_ifs
  · exact ⟨rfl, rfl, rfl⟩
  · exact ⟨rfl, rfl, rfl⟩

theorem frames_insert_same {pt : PageTable} {pg : ℕ} {pte pte' : Pte}
    (h : pt.lookup pg = some pte) (hframe : pte'.frame = pte.frame) :
    (frames (pt.insert pg pte')).Perm (frames pt) := by
  unfold frames
  rw [Table.values_insert, List.map_cons, hframe, ← List.map_cons]
  exact ((Table.values_perm_erase h).map Pte.frame).symm

theorem frames_insert_new {pt : PageTable} {pg : ℕ} (pte : Pte) (h : pt.lookup pg = none) :
    frames (pt.insert pg pte) = pte.frame :: frames pt := by
  unfold frames
  rw [Table.values_insert, Table.erase_of_lookup_none h, List.map_cons]

theorem frames_insert_perm {pt : PageTable} {pg : ℕ} {pte : Pte} (pte' : Pte) (h : pt.lookup pg = some pte) :
    (pte.frame :: frames (pt.insert pg pte')).Perm (pte'.frame :: frames pt) := by
  unfold frames
  rw [Table.values_insert, List.map_cons]
  refine (List.Perm.swap _ _ _).trans (List.Perm.cons _ ?_)
  exact ((Table.values_perm_erase h).map Pte.frame).symm

theorem mem_frames {pt : PageTable} {f : ℕ} : f ∈ frames pt ↔ ∃ pg pte, pt.lookup pg = some pte ∧ pte.frame = f := by
  unfold frames
  rw [List.mem_map]
  constructor
  · rintro ⟨pte, hmem, hframe⟩
    obtain ⟨pg, hpg⟩ := Table.mem_values.mp hmem
    exact ⟨pg, pte, hpg, hframe⟩
  · rintro ⟨pg, pte, hpg, hframe⟩
    exact ⟨pte, Table.mem_values.mpr ⟨pg, hpg⟩, hframe⟩

/-- `filemap_sync_pte` does nothing, or writes a cached page of the file. -/
theorem filemapSyncPte_cases (k : Kernel) (f : ℕ) (v : Vma) (pg n : ℕ) (x : PageTable × Memory) :
    filemapSyncPte k f v pg n x = x ∨
      ∃ pte ino c, x.1.lookup pg = some pte ∧ inodeOf k f = some ino ∧
        x.2.cache.lookup (ino, v.pos (pg * pageSize) / pageSize) = some c ∧
        filemapSyncPte k f v pg n x =
          (if n < pageSize then x.1 else x.1.insert pg { pte with dirty := false },
            fileWrite ino (v.pos (pg * pageSize)) (x.2.data pte.frame) (min n pageSize) c x.2) := by
  unfold filemapSyncPte
  cases hpte : x.1.lookup pg with
  | none => exact Or.inl rfl
  | some pte =>
    cases hino : inodeOf k f with
    | none => exact Or.inl rfl
    | some ino =>
      simp only
      by_cases hskip : (pteBad k pte || !pte.dirty) = true
      · rw [if_pos hskip]
        exact Or.inl rfl
      · rw [if_neg hskip]
        cases hc : x.2.cache.lookup (ino, v.pos (pg * pageSize) / pageSize) with
        | none => exact Or.inl rfl
        | some c =>
          simp only
          by_cases hop : (!((k.files f).fOp.any FileOps.write)) = true
          · rw [if_pos hop]
            exact Or.inl rfl
          · rw [if_neg hop]
            exact Or.inr ⟨pte, ino, c, rfl, rfl, hc, rfl⟩

theorem filemapSyncPte_synced (k : Kernel) (f : ℕ) (v : Vma) (pg n : ℕ) (x : PageTable × Memory) :
    Synced x (filemapSyncPte k f v pg n x) := by
  rcases filemapSyncPte_cases k f v pg n x with hx | ⟨pte, ino, c, hpte, -, -, hx⟩
  · rw [hx]
    exact Synced.refl x
  · rw [hx]
    obtain ⟨hpool, hcache, hheld⟩ := fileWrite_pool ino (v.pos (pg * pageSize))
      (x.2.data pte.frame) (min n pageSize) c x.2
    split_ifs
    · exact ⟨hpool, hcache, hheld, fun _ => rfl, List.Perm.refl _⟩
    · refine ⟨hpool, hcache, hheld, fun pg' => ?_, frames_insert_same hpte rfl⟩
      by_cases hpg : pg' = pg
      · subst hpg
        simp only [AList.lookup_insert, hpte, Option.map_some, Pte.clean]
      · simp only [AList.lookup_insert_ne hpg]

theorem syncArea_cases (k : Kernel) (v : Vma) (start fin : ℕ) (io : ℕ → ℕ) (x : PageTable × Memory) :
    syncArea k v start fin io x = x ∨
      ∃ f, v.vmFile = some f ∧ v.vmFlags.shared = true ∧ v.vmFlags.write = true ∧
        syncArea k v start fin io x = (pagesIn start fin).foldl (fun x pg => filemapSyncPte k f v pg (io pg) x) x := by
  unfold syncArea filemapSync
  by_cases hops : v.vmOps = some .fileShared
  · rw [if_pos hops]
    cases hf : v.vmFile with
    | none => exact Or.inl rfl
    | some f =>
      simp only
      by_cases hflags : (v.vmFlags.shared && v.vmFlags.write) = true
      · rw [if_pos hflags]
        rw [Bool.and_eq_true] at hflags
        exact Or.inr ⟨f, rfl, hflags.1, hflags.2, rfl⟩
      · rw [if_neg hflags]
        exact Or.inl rfl
  · rw [if_neg hops]
    exact Or.inl rfl

theorem syncArea_synced (k : Kernel) (v : Vma) (start fin : ℕ) (io : ℕ → ℕ)
    (x : PageTable × Memory) : Synced x (syncArea k v start fin io x) := by
  rcases syncArea_cases k v start fin io x with hx | ⟨f, -, -, -, hx⟩
  · rw [hx]
    exact Synced.refl x
  · rw [hx]
    exact synced_foldl (fun x pg => filemapSyncPte_synced k f v pg (io pg) x) _ x

theorem closeAreas_synced (k : Kernel) (io : ℕ → ℕ) (l : List Vma) (x : PageTable × Memory) :
    Synced x (closeAreas k io l x) :=
  synced_foldl (fun x v => syncArea_synced k v v.vmStart v.vmEnd io x) l x

/-- The areas that `do_munmap` writes back. -/
def unmapAreas (k : Kernel) (addr fin : ℕ) (io : ℕ → ℕ → ℕ) (free : List Vma)
    (x : PageTable × Memory) : PageTable × Memory :=
  free.foldl (fun x v =>
    let y := syncArea k v (max addr v.vmStart) (min fin v.vmEnd) (io 0) x
    if addr ≤ v.vmStart ∧ v.vmEnd ≤ fin then syncArea k v v.vmStart v.vmEnd (io 1) y else y) x

theorem munmapPages_eq (k : Kernel) (addr len : ℕ) (io : ℕ → ℕ → ℕ) (l : List Vma) (x : PageTable × Memory) :
    munmapPages k addr len io l x =
      if MunmapInvalid addr len ∨ pageAlign len = 0 ∨
          (unlinkRange addr (addr + pageAlign len) [] l).2 = [] then x
      else unmapPageRange k addr (addr + pageAlign len)
        (unmapAreas k addr (addr + pageAlign len) io (unlinkRange addr (addr + pageAlign len) [] l).2 x) := rfl

theorem unmapAreas_synced (k : Kernel) (addr fin : ℕ) (io : ℕ → ℕ → ℕ) (free : List Vma)
    (x : PageTable × Memory) : Synced x (unmapAreas k addr fin io free x) := by
  refine synced_foldl (fun x v => ?_) free x
  have hfirst := syncArea_synced k v (max addr v.vmStart) (min fin v.vmEnd) (io 0) x
  simp only
  split_ifs
  · exact hfirst.trans (syncArea_synced ..)
  · exact hfirst

theorem msyncAreas_synced (k : Kernel) (fin : ℕ) (io : ℕ → ℕ) (cursor : ℕ) (l : List Vma)
    (x : PageTable × Memory) : Synced x (msyncAreas k fin io cursor l x).1 := by
  induction l generalizing cursor x with
  | nil => exact Synced.refl x
  | cons v l ih =>
    unfold msyncAreas
    split_ifs
    · exact Synced.refl x
    · exact (syncArea_synced ..).trans (ih _ _)
    · exact ih _ _

theorem frames_protectPageRange (k : Kernel) (start fin : ℕ) (prot : VmFlags) (pt : PageTable) :
    frames (protectPageRange k start fin prot pt) = frames pt := by
  unfold frames protectPageRange
  refine Table.values_mapVal_map fun pg pte => ?_
  split_ifs <;> rfl

theorem frames_writeProtect (pde : Option ℕ) (pt : PageTable) : frames (writeProtect pde pt) = frames pt := by
  unfold frames writeProtect
  refine Table.values_mapVal_map fun pg pte => ?_
  split_ifs <;> rfl

theorem frames_copyEntries (pde : Option ℕ) (pt : PageTable) :
    frames (copyEntries pde pt) = frames (Table.restrict (reached pde) pt) := by
  unfold frames copyEntries
  exact Table.values_mapVal_map fun pg pte => rfl

/-! ## Operations on one page table -/

/-- The references of a page table, the page cache and kernel code. -/
def refs (x : PageTable × Memory) : List ℕ := frames x.1 ++ x.2.users

/-- The operation turns the references of its page table and of memory before it into
those after it. -/
def PageMoves (x y : PageTable × Memory) : Prop := Pool.Moves x.2.pool y.2.pool (refs x) (refs y)

theorem Synced.moves {x y : PageTable × Memory} (h : Synced x y) : PageMoves x y := by
  unfold PageMoves refs
  rw [h.pool, h.users]
  exact (Pool.Moves.refl _ _).perm (List.Perm.refl _) (h.perm.symm.append_right _)

theorem unmapPageRange_moves {k : Kernel} {addr fin : ℕ} {x : PageTable × Memory}
    (hreal : ∀ f ∈ frames x.1, f ≠ crossed k.bad) : PageMoves x (unmapPageRange k addr fin x) := by
  let inside := fun pg => decide (addr ≤ pg * pageSize ∧ pg * pageSize < fin)
  have hkeep : ((Table.values (Table.restrict inside x.1)).filter fun pte => !pteBad k pte) =
      Table.values (Table.restrict inside x.1) := by
    refine List.filter_eq_self.mpr fun pte hpte => ?_
    have hmem : pte.frame ∈ frames x.1 := by
      obtain ⟨pg, hpg⟩ := Table.mem_values.mp hpte
      rw [Table.lookup_restrict] at hpg
      split_ifs at hpg
      exact mem_frames.mpr ⟨pg, pte, hpg, rfl⟩
    simpa [pteBad] using hreal _ hmem
  have hsplit : (frames (Table.restrict inside x.1) ++
      frames (Table.restrict (fun pg => !inside pg) x.1)).Perm (frames x.1) := by
    unfold frames
    rw [← List.map_append]
    exact (Table.values_restrict_perm inside x.1).map Pte.frame
  have hput : Pool.Moves x.2.pool (putPages (frames (Table.restrict inside x.1)) x.2).pool
      (frames (Table.restrict inside x.1) ++ (frames (Table.restrict (fun pg => !inside pg) x.1) ++ x.2.users))
      (frames (Table.restrict (fun pg => !inside pg) x.1) ++ x.2.users) := Pool.moves_putAll
  unfold PageMoves unmapPageRange
  simp only
  rw [show ((Table.values (Table.restrict (fun pg => decide (addr ≤ pg * pageSize ∧
    pg * pageSize < fin)) x.1)).filter fun pte => !pteBad k pte) = _ from hkeep]
  refine hput.perm ?_ (List.Perm.refl _)
  rw [← List.append_assoc]
  exact hsplit.append_right _

theorem freePageTables_moves (x : PageTable × Memory) : PageMoves x (freePageTables x) :=
  Pool.moves_putAll

theorem Synced.frames_real {x y : PageTable × Memory} (h : Synced x y) {P : ℕ → Prop}
    (hreal : ∀ f ∈ frames x.1, P f) : ∀ f ∈ frames y.1, P f :=
  fun f hf => hreal f (h.perm.mem_iff.mp hf)

theorem munmapPages_moves {k : Kernel} {addr len : ℕ} {io : ℕ → ℕ → ℕ} {l : List Vma}
    {x : PageTable × Memory} (hreal : ∀ f ∈ frames x.1, f ≠ crossed k.bad) :
    PageMoves x (munmapPages k addr len io l x) := by
  rw [munmapPages_eq]
  split_ifs
  · exact Pool.Moves.refl _ _
  · have hsync := unmapAreas_synced k addr (addr + pageAlign len) io (unlinkRange addr (addr + pageAlign len) [] l).2 x
    exact Pool.Moves.trans hsync.moves (unmapPageRange_moves (hsync.frames_real hreal))

theorem getZeroPage_spec {g : ℕ} {m m' : Memory} (h : getZeroPage g m = some m') :
    m.pool.free g = true ∧ m' = { m with pool := m.pool.take g, data := update m.data g fun _ => 0 } := by
  unfold getZeroPage at h
  split_ifs at h with hfree
  exact ⟨hfree, (Option.some.inj h).symm⟩

/-- `filemap_get_page` fails and changes nothing, or adds a reference to the page of the
cache, which it may have put there. -/
theorem filemapGetPage_spec {ino index : ℕ} {page : Option ℕ} {m m' : Memory} {r : Option ℕ}
    (h : filemapGetPage ino index page m = some (m', r)) :
    (r = none ∧ m' = m ∧ m.cache.lookup (ino, index) = none ∧ page = none) ∨
    (∃ f, r = some f ∧ m.cache.lookup (ino, index) = some f ∧
      m' = { m with pool := m.pool.ref f }) ∨
    ∃ g, r = some g ∧ m.cache.lookup (ino, index) = none ∧ m.pool.free g = true ∧
      m' = { m with
        pool := (m.pool.take g).ref g
        data := update m.data g fun o => fileByte m ino (index * pageSize + o)
        cache := m.cache.insert (ino, index) g } := by
  unfold filemapGetPage at h
  cases hlook : m.cache.lookup (ino, index) with
  | some f =>
    rw [hlook] at h
    simp only [Option.some.injEq, Prod.mk.injEq] at h
    exact Or.inr (Or.inl ⟨f, h.2.symm, rfl, h.1.symm⟩)
  | none =>
    rw [hlook] at h
    cases page with
    | none =>
      simp only [Option.some.injEq, Prod.mk.injEq] at h
      exact Or.inl ⟨h.2.symm, h.1.symm, rfl, rfl⟩
    | some g =>
      simp only at h
      split_ifs at h with hfree
      simp only [Option.some.injEq, Prod.mk.injEq] at h
      exact Or.inr (Or.inr ⟨g, h.2.symm, rfl, hfree, h.1.symm⟩)

theorem filemapGetPage_moves {ino index f : ℕ} {page : Option ℕ} {m m' : Memory}
    (h : filemapGetPage ino index page m = some (m', some f)) : Pool.Moves m.pool m'.pool m.users (f :: m'.users) := by
  rcases filemapGetPage_spec h with ⟨hr, -⟩ | ⟨f', hr, hlook, rfl⟩ | ⟨g, hr, hlook, hfree, rfl⟩
  · cases hr
  · obtain rfl : f = f' := Option.some.inj hr
    refine Pool.moves_ref (List.mem_append_left _ ?_)
    exact Table.mem_values.mpr ⟨_, hlook⟩
  · obtain rfl : f = g := Option.some.inj hr
    have hfirst : Pool.Moves m.pool (m.pool.take f) m.users (f :: m.users) :=
      Pool.moves_take hfree
    have hsecond : Pool.Moves (m.pool.take f) ((m.pool.take f).ref f) (f :: m.users)
        (f :: f :: m.users) := Pool.moves_ref List.mem_cons_self
    have husers : Memory.users { m with
        pool := (m.pool.take f).ref f
        data := update m.data f fun o => fileByte m ino (index * pageSize + o)
        cache := m.cache.insert (ino, index) f } = f :: m.users := by
      unfold Memory.users
      simp only
      rw [Table.values_insert, Table.erase_of_lookup_none hlook, List.cons_append]
    rw [husers]
    exact hfirst.trans hsecond

/-! ## Page faults -/

/-- The fault finds the page it needs: there is memory, the file can be read, and the
page is not one that `get_shared_page` finds. -/
def pageFound (k : Kernel) (P : Proc) (v : Vma) (addr : ℕ) (ans : Answer) (s : Machine) : Bool :=
  match P.pt.lookup (addr / pageSize) with
  | some pte =>
      v.vmFlags.shared || decide (s.mem.pool.count pte.frame = 1) || ans.page.isSome
  | none =>
      !ans.pt ||
        match v.vmOps with
        | none => ans.page.isSome
        | some _ =>
            (getSharedPage k s v addr).isNone &&
              (filePage k v (addr / pageSize)).any fun key =>
                (s.mem.cache.lookup key).isSome || ans.page.isSome

theorem doWpPage_spec {k : Kernel} {v : Vma} {pg : ℕ} {pte : Pte} {ans : Answer}
    {x y : PageTable × Memory} (h : doWpPage k v pg pte ans x = some y)
    (hfound : v.vmFlags.shared = true ∨ x.2.pool.count pte.frame = 1 ∨ ans.page.isSome = true) :
    ((v.vmFlags.shared = true ∨ x.2.pool.count pte.frame = 1) ∧
      y = (x.1.insert pg { pte with rw := true }, x.2)) ∨
    (v.vmFlags.shared = false ∧ x.2.pool.count pte.frame ≠ 1 ∧ ∃ g, x.2.pool.free g = true ∧
      y.1 = x.1.insert pg (mkPte g v.vmPageProt) ∧
      y.2 = { x.2 with
        pool := (x.2.pool.take g).put pte.frame
        data := update (update x.2.data g fun _ => 0) g
          ((update x.2.data g fun _ => 0) pte.frame) }) := by
  unfold doWpPage at h
  split_ifs at h with hdirect
  · exact Or.inl ⟨hdirect, (Option.some.inj h).symm⟩
  · rw [not_or, Bool.not_eq_true] at hdirect
    cases hpage : ans.page with
    | none =>
      rw [hpage, hdirect.1] at hfound
      simp [hdirect.2] at hfound
    | some g =>
      rw [hpage] at h
      obtain ⟨m, hm, rfl⟩ := Option.map_eq_some_iff.mp h
      obtain ⟨hfree, rfl⟩ := getZeroPage_spec hm
      exact Or.inr ⟨hdirect.1, hdirect.2, g, hfree, rfl, rfl⟩

theorem doWpPage_moves {k : Kernel} {v : Vma} {pg : ℕ} {pte : Pte} {ans : Answer}
    {x y : PageTable × Memory} (h : doWpPage k v pg pte ans x = some y) (hpte : x.1.lookup pg = some pte)
    (hfound : v.vmFlags.shared = true ∨ x.2.pool.count pte.frame = 1 ∨ ans.page.isSome = true) : PageMoves x y := by
  rcases doWpPage_spec h hfound with ⟨-, rfl⟩ | ⟨-, -, g, hfree, hpt, hmem⟩
  · refine (Pool.Moves.refl _ _).perm (List.Perm.refl _) ?_
    exact (frames_insert_same hpte rfl).symm.append_right _
  · have hfirst : Pool.Moves x.2.pool (x.2.pool.take g) (refs x) (g :: refs x) :=
      Pool.moves_take hfree
    have hswap : (g :: refs x).Perm (pte.frame :: (frames y.1 ++ x.2.users)) := by
      rw [hpt]
      exact ((frames_insert_perm (mkPte g v.vmPageProt) hpte).symm).append_right x.2.users
    have husers : y.2.users = x.2.users := by rw [hmem]; rfl
    unfold PageMoves refs
    rw [husers, hmem]
    exact hfirst.trans (Pool.moves_put.perm hswap.symm (List.Perm.refl _))

theorem doNoPage_spec {k : Kernel} {v : Vma} {pg : ℕ} {ans : Answer} {x y : PageTable × Memory}
    (h : doNoPage k v pg none ans x = some y)
    (hfound : ans.pt = false ∨ (v.vmOps = none ∧ ans.page.isSome = true) ∨
      ∃ key, v.vmOps ≠ none ∧ filePage k v pg = some key ∧
        ((x.2.cache.lookup key).isSome = true ∨ ans.page.isSome = true)) :
    y = x ∨
    (v.vmOps = none ∧ ∃ g m, getZeroPage g x.2 = some m ∧
      y = (x.1.insert pg (mkPte g v.vmPageProt), m)) ∨
    (v.vmOps ≠ none ∧ ∃ ino index f m, filePage k v pg = some (ino, index) ∧
      filemapGetPage ino index ans.page x.2 = some (m, some f) ∧
      y = (x.1.insert pg (mkPte f (nopageProt v)), m)) := by
  unfold doNoPage at h
  by_cases hpt : ans.pt = false
  · rw [if_pos hpt] at h
    exact Or.inl (Option.some.inj h).symm
  · rw [if_neg hpt] at h
    rcases hfound with hfound | ⟨hops, hpage⟩ | ⟨⟨ino, index⟩, hops, hkey, hsome⟩
    · exact absurd hfound hpt
    · rw [hops] at h
      obtain ⟨g, hg⟩ := Option.isSome_iff_exists.mp hpage
      rw [hg] at h
      obtain ⟨m, hm, rfl⟩ := Option.map_eq_some_iff.mp h
      exact Or.inr (Or.inl ⟨hops, g, m, hm, rfl⟩)
    · obtain ⟨ops, hops'⟩ := Option.ne_none_iff_exists'.mp hops
      rw [hops'] at h
      simp only [filemapNopage, hkey] at h
      obtain ⟨⟨m, r⟩, hm, hy⟩ := Option.map_eq_some_iff.mp h
      cases r with
      | some f => exact Or.inr (Or.inr ⟨hops, ino, index, f, m, hkey, hm, hy.symm⟩)
      | none =>
        rcases filemapGetPage_spec hm with ⟨-, -, hnone, hpage⟩ | ⟨f, hr, -⟩ | ⟨g, hr, -⟩
        · rw [hnone, hpage] at hsome
          simp at hsome
        · cases hr
        · cases hr

theorem doNoPage_moves {k : Kernel} {v : Vma} {pg : ℕ} {ans : Answer} {x y : PageTable × Memory}
    (h : doNoPage k v pg none ans x = some y) (hpg : x.1.lookup pg = none)
    (hfound : ans.pt = false ∨ (v.vmOps = none ∧ ans.page.isSome = true) ∨
      ∃ key, v.vmOps ≠ none ∧ filePage k v pg = some key ∧
        ((x.2.cache.lookup key).isSome = true ∨ ans.page.isSome = true)) : PageMoves x y := by
  rcases doNoPage_spec h hfound with rfl | ⟨-, g, m, hm, rfl⟩ | ⟨-, ino, index, f, m, -, hm, rfl⟩
  · exact Pool.Moves.refl _ _
  · obtain ⟨hfree, rfl⟩ := getZeroPage_spec hm
    unfold PageMoves refs
    rw [frames_insert_new _ hpg]
    exact Pool.moves_take hfree
  · unfold PageMoves refs
    rw [frames_insert_new _ hpg]
    refine ((filemapGetPage_moves hm).frame (frames x.1)).perm List.perm_append_comm ?_
    exact List.Perm.cons _ List.perm_append_comm

theorem faultPage_cases {k : Kernel} {P : Proc} {v : Vma} {addr : ℕ} {ans : Answer} {s : Machine}
    {y : PageTable × Memory} (h : faultPage k P v addr ans s = some y) (hfound : pageFound k P v addr ans s = true) :
    (∃ pte, P.pt.lookup (addr / pageSize) = some pte ∧
      doWpPage k v (addr / pageSize) pte ans (P.pt, s.mem) = some y ∧
      (v.vmFlags.shared = true ∨ s.mem.pool.count pte.frame = 1 ∨ ans.page.isSome = true)) ∨
    (P.pt.lookup (addr / pageSize) = none ∧
      doNoPage k v (addr / pageSize) none ans (P.pt, s.mem) = some y ∧
      (ans.pt = false ∨ (v.vmOps = none ∧ ans.page.isSome = true) ∨
        ∃ key, v.vmOps ≠ none ∧ filePage k v (addr / pageSize) = some key ∧
          ((s.mem.cache.lookup key).isSome = true ∨ ans.page.isSome = true))) := by
  unfold faultPage at h
  unfold pageFound at hfound
  cases hlook : P.pt.lookup (addr / pageSize) with
  | some pte =>
    simp only [hlook] at h hfound
    simp only [Bool.or_eq_true, decide_eq_true_eq] at hfound
    exact Or.inl ⟨pte, rfl, h, by tauto⟩
  | none =>
    simp only [hlook] at h hfound
    refine Or.inr ⟨rfl, ?_⟩
    cases hpt : ans.pt with
    | false =>
      refine ⟨?_, Or.inl rfl⟩
      simpa only [doNoPage, hpt, if_true] using h
    | true =>
      simp only [hpt, Bool.not_true, Bool.false_or] at hfound
      cases hops : v.vmOps with
      | none =>
        simp only [hops] at hfound
        refine ⟨?_, Or.inr (Or.inl ⟨rfl, hfound⟩)⟩
        simpa only [doNoPage, hops] using h
      | some ops =>
        simp only [hops, Bool.and_eq_true, Option.isNone_iff_eq_none, Option.any_eq_true, Bool.or_eq_true] at hfound
        obtain ⟨hshared, key, hkey, hsome⟩ := hfound
        rw [hshared] at h
        exact ⟨h, Or.inr (Or.inr ⟨key, by simp, hkey, hsome⟩)⟩

theorem faultPage_moves {k : Kernel} {P : Proc} {v : Vma} {addr : ℕ} {ans : Answer} {s : Machine}
    {y : PageTable × Memory} (h : faultPage k P v addr ans s = some y)
    (hfound : pageFound k P v addr ans s = true) : PageMoves (P.pt, s.mem) y := by
  rcases faultPage_cases h hfound with ⟨pte, hpte, hwp, hneed⟩ | ⟨hnone, hno, hneed⟩
  · exact doWpPage_moves hwp hpte hneed
  · exact doNoPage_moves hno hnone hneed

end Mario.Paging
