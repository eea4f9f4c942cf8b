import Mario.Fs.Mariofs.BlockMapRuns

/-!
# Writing the files of a MarioFS

What `mario_file_write` stores, and what it leaves of the size, the position and the blocks of a file, when writes of many
files go on at once. The semaphore of an inode is held from the start of a write to the end of its rounds, but its two
assertions run after `up`, when the next write or truncation may be under way. `sys_lseek` takes no semaphore at all.
-/

namespace Mario.Fs.Mariofs.Maps

open Mario.Lib Mario.Fs.Mariofs Function

/-! ## The byte of a file -/

/-- The byte at an offset of a chain of blocks. -/
def Volume.byteOf (v : Volume) (l : List ℕ) (x : ℕ) : Byte := v.data (l.getD (x / maxUsed) 0) (x % maxUsed)

/-- The byte at an offset of a file, found by its links. -/
def Volume.byte (v : Volume) (id x : ℕ) : Option Byte :=
  (v.node id).map fun nd => v.data (v.next^[x / maxUsed] nd.rdev) (x % maxUsed)

/-- What a write of `buf` at `start` has done to its file when it returns `n`. The first volume is the one in which it took
the semaphore. -/
structure Stored (v v' : Volume) (id start n : ℕ) (buf : List Byte) : Prop where
  le : n ≤ buf.length
  bytes : ∀ x < n, v'.byte id (start + x) = buf[x]?
  kept : ∀ x < v.size id, x < start ∨ start + n ≤ x → v'.byte id x = v.byte id x
  size : v'.size id = max (v.size id) (start + n)
  chain : ∃ nd l, v'.node id = some nd ∧ Linked v'.next 0 nd.rdev l ∧ l.length = nd.nrBlock

/-- Nothing of another file has changed: neither its inode nor a byte or a link of its blocks. -/
def Volume.Untouched (v v' : Volume) (id : ℕ) : Prop :=
  ∀ i ≠ id, v'.node i = v.node i ∧ v'.size i = v.size i ∧
    ∀ nd l, v.node i = some nd → Chain v.next nd l → ∀ b ∈ l, v'.data b = v.data b ∧ v'.next b = v.next b

variable {v v' v₀ : Volume} {s : State} {free : List ℕ} {cells : ℕ → List ℕ} {nd : Node} {a : Calls}
  {id n b k start : ℕ} {l l₀ : List ℕ} {read : ℕ → Bool} {buf : List Byte} {w w' : Writing}

theorem byte_eq {x : ℕ} (hnode : v.node id = some nd) (hlinked : Linked v.next 0 nd.rdev l) (hx : x / maxUsed < l.length) :
    v.byte id x = some (v.byteOf l x) := by
  rw [Volume.byte, hnode, Option.map_some, Volume.byteOf, ← Linked.getElem_iterate hlinked hx,
    List.getD_eq_getElem?_getD, List.getElem?_eq_getElem hx, Option.getD_some]

/-- An inode has one chain. -/
theorem Chain.unique {next : ℕ → ℕ} {l' : List ℕ} (h : Chain next nd l) (h' : Chain next nd l') : l = l' := by
  unfold Chain at h h'
  cases hhead : nd.head with
  | none =>
    rw [hhead] at h h'
    exact Eq.trans h (Eq.symm h')
  | some b =>
    rw [hhead] at h h'
    exact h.2.1.unique h'.2.1

/-- The chains of the other files are known, so it is enough to look at their blocks. -/
theorem Coherent.untouched (h : Coherent v free cells)
    (hcells : ∀ i ≠ id, v'.node i = v.node i ∧ v'.size i = v.size i ∧
      ∀ b ∈ cells i, v'.data b = v.data b ∧ v'.next b = v.next b) : v.Untouched v' id := by
  intro i hi
  obtain ⟨hnode, hsize, hblocks⟩ := hcells i hi
  refine ⟨hnode, hsize, fun nd l hnd hchain b hb => ?_⟩
  obtain rfl := Chain.unique hchain (h.laid.node i nd hnd)
  exact hblocks b hb

theorem Coherent.untouched_cell {i : ℕ} (h : Coherent v free cells) (huntouched : v.Untouched v' id) (hi : i ≠ id)
    (hb : b ∈ cells i) : v'.data b = v.data b ∧ v'.next b = v.next b := by
  cases hnode : v.node i with
  | none =>
    rw [h.laid.gone i hnode] at hb
    cases hb
  | some nd => exact (huntouched i hi).2.2 nd (cells i) hnode (h.laid.node i nd hnode) b hb

theorem untouched_self (v : Volume) (id : ℕ) : v.Untouched v id := fun _ _ => ⟨rfl, rfl, fun _ _ _ _ _ _ => ⟨rfl, rfl⟩⟩

/-- The bytes of a chain whose blocks have been left alone. -/
theorem byteOf_congr {x : ℕ} (hdata : ∀ b ∈ l, v'.data b = v.data b) (hx : x / maxUsed < l.length) :
    v'.byteOf l x = v.byteOf l x := by
  rw [Volume.byteOf, Volume.byteOf, List.getD_eq_getElem?_getD, List.getElem?_eq_getElem hx, Option.getD_some,
    hdata _ (List.getElem_mem hx)]

/-! ## The rounds of a write -/

/-- A write of `buf` from `start` on is at the block of index `k` in the chain `l` of its file. The chain was `l₀` in `v₀`,
when the write began. -/
structure Writing.Holds (w : Writing) (v₀ : Volume) (l₀ : List ℕ) (id start : ℕ) (buf : List Byte) (l : List ℕ)
    (k : ℕ) : Prop where
  node : w.vol.node id = some w.node
  kind : w.node.kind = .regular
  first : l₀ <+: l
  block : l[k]? = some w.block
  longest : l.length = max l₀.length (k + 1)
  last : 0 < w.nr → k + 1 = l.length ∧ w.res = 0
  start_eq : w.start = start + w.res
  pos_eq : w.pos = start + w.res
  res_le : w.res ≤ buf.length
  buf_eq : w.buf = buf.drop w.res
  size : w.vol.size id = v₀.size id
  stored : ∀ x, start ≤ x → x < start + w.res → x / maxUsed < l.length ∧ some (w.vol.byteOf l x) = buf[x - start]?
  kept : ∀ x, x / maxUsed < l₀.length → (x < start ∨ start + w.res ≤ x) → w.vol.byteOf l x = v₀.byteOf l₀ x

theorem Writing.Holds.mem (h : w.Holds v₀ l₀ id start buf l k) : w.block ∈ l := List.mem_of_getElem? h.block

theorem Writing.Holds.linked (h : w.Holds v₀ l₀ id start buf (cells id) k) (hvol : Coherent w.vol free cells) :
    Linked w.vol.next 0 w.node.rdev (cells id) :=
  (hvol.linked h.node h.kind (hvol.nrBlock_ne_zero h.node h.kind h.mem)).2

/-- What others do to their files changes nothing for a write that is under way. -/
theorem Writing.Holds.frame (h : w.Holds v₀ l₀ id start buf l k) (hnode : v'.node id = w.vol.node id)
    (hsize : v'.size id = w.vol.size id) (hdata : ∀ b ∈ l, v'.data b = w.vol.data b) :
    { w with vol := v' }.Holds v₀ l₀ id start buf l k := by
  refine { h with
    node := hnode.trans h.node
    size := hsize.trans h.size
    stored := fun x hle hlt => ?_
    kept := fun x hx hout => ?_ }
  · obtain ⟨hx, hbyte⟩ := h.stored x hle hlt
    exact ⟨hx, by rw [← hbyte, byteOf_congr hdata hx]⟩
  · rw [← h.kept x hx hout]
    exact byteOf_congr hdata (Nat.lt_of_lt_of_le hx h.first.length_le)

theorem Writing.Holds.amount_eq (h : w.Holds v₀ l₀ id start buf l k) (hstop : start + buf.length < 2 ^ 32) :
    w.amount (start + buf.length) = min (maxUsed - w.start % maxUsed) w.buf.length := by
  have hres := h.res_le
  rw [Writing.amount, h.buf_eq, List.length_drop, h.start_eq]
  congr 1
  omega

/-- What is in a block after some bytes have been written to it. -/
theorem fill_apply (data : ℕ → Byte) (offset : ℕ) (bytes : List Byte) (o : ℕ) :
    (offset ≤ o → o < offset + bytes.length → some (fill data offset bytes o) = bytes[o - offset]?) ∧
      (o < offset ∨ offset + bytes.length ≤ o → fill data offset bytes o = data o) := by
  constructor
  · intro hle hlt
    rw [fill, if_pos hle, List.getElem?_eq_getElem (by omega), Option.getD_some]
  · intro hout
    rw [fill]
    split_ifs with hle
    · rw [List.getElem?_eq_none (by omega), Option.getD_none]
    · rfl

/-- Bytes are written to the block of an offset. -/
def Volume.store (v : Volume) (b start : ℕ) (bytes : List Byte) : Volume :=
  { v with data := update v.data b (fill (v.data b) (start % maxUsed) bytes) }

theorem byteOf_store_self {bytes : List Byte} {x : ℕ} (hb : l[start / maxUsed]? = some b)
    (hfit : start % maxUsed + bytes.length ≤ maxUsed) (hle : start ≤ x) (hlt : x < start + bytes.length) :
    some ((v.store b start bytes).byteOf l x) = bytes[x - start]? := by
  simp only [maxUsed] at hb hfit
  have hdiv : x / 508 = start / 508 := by omega
  have hsub : x % 508 - start % 508 = x - start := by omega
  have hfill := (fill_apply (v.data b) (start % 508) bytes (x % 508)).1 (by omega) (by omega)
  rw [Volume.byteOf, maxUsed, hdiv, List.getD_eq_getElem?_getD, hb, Option.getD_some, Volume.store]
  dsimp only
  rw [update_self, maxUsed, hfill, hsub]

theorem byteOf_store_of_not_mem {bytes : List Byte} {x : ℕ} (hb : l[start / maxUsed]? = some b) (hnodup : l.Nodup)
    (hx : x / maxUsed < l.length) (hout : x < start ∨ start + bytes.length ≤ x) : (v.store b start bytes).byteOf l x = v.byteOf l x := by
  rw [Volume.byteOf, Volume.byteOf, Volume.store]
  dsimp only
  by_cases hdiv : x / maxUsed = start / maxUsed
  · rw [hdiv, List.getD_eq_getElem?_getD, hb, Option.getD_some, update_self]
    refine (fill_apply (v.data b) (start % maxUsed) bytes (x % maxUsed)).2 ?_
    simp only [maxUsed] at hdiv ⊢
    omega
  · rw [update_of_ne]
    rw [List.getD_eq_getElem?_getD, List.getElem?_eq_getElem hx, Option.getD_some]
    intro heq
    obtain ⟨hk, hb'⟩ := List.getElem?_eq_some_iff.mp hb
    exact hdiv ((List.Nodup.getElem_inj_iff hnodup).mp (heq.trans hb'.symm))

theorem Writing.Holds.fillBlock (h : w.Holds v₀ l₀ id start buf l k) (hnodup : l.Nodup) (hnr : w.nr = 0)
    (hhere : k = w.start / maxUsed) (hn : w.start % maxUsed + n ≤ maxUsed) (hbuf : n ≤ w.buf.length)
    (hstop : start + buf.length < 2 ^ 32) : (w.fillBlock n).Holds v₀ l₀ id start buf l k := by
  have hres := h.res_le
  have hstart := h.start_eq
  have hlength : w.buf.length = buf.length - w.res := by rw [h.buf_eq, List.length_drop]
  have hmod : (w.start + n) % 2 ^ 32 = w.start + n := Nat.mod_eq_of_lt (by omega)
  have hblock : l[w.start / maxUsed]? = some w.block := hhere ▸ h.block
  have htake : (w.buf.take n).length = n := by rw [List.length_take, Nat.min_eq_left hbuf]
  have hvol : (w.fillBlock n).vol = w.vol.store w.block w.start (w.buf.take n) := rfl
  refine ⟨h.node, h.kind, h.first, h.block, h.longest, fun hpos => ?_, ?_, ?_, ?_, ?_, h.size, fun x hle hlt => ?_,
    fun x hx hout => ?_⟩
  · exact absurd hpos (by rw [show (w.fillBlock n).nr = w.nr from rfl, hnr]; decide)
  · change (w.start + n) % 2 ^ 32 = start + (w.res + n)
    omega
  · change w.pos + n = start + (w.res + n)
    rw [h.pos_eq]
    omega
  · change w.res + n ≤ buf.length
    omega
  · change w.buf.drop n = buf.drop (w.res + n)
    rw [h.buf_eq, List.drop_drop]
  · rw [hvol]
    have hlt' : x < w.start + n := by
      change x < start + (w.res + n) at hlt
      omega
    by_cases hold : x < w.start
    · obtain ⟨hx, hbyte⟩ := h.stored x hle (by omega)
      exact ⟨hx, by rw [byteOf_store_of_not_mem hblock hnodup hx (.inl hold), hbyte]⟩
    · refine ⟨?_, ?_⟩
      · obtain ⟨hk, -⟩ := List.getElem?_eq_some_iff.mp hblock
        simp only [maxUsed] at hk hn ⊢
        omega
      · rw [byteOf_store_self hblock (by rw [htake]; exact hn) (by omega) (by rw [htake]; exact hlt'),
          List.getElem?_take_of_lt (by omega), h.buf_eq, List.getElem?_drop]
        congr 1
        omega
  · rw [hvol]
    have hout' : x < start ∨ start + (w.res + n) ≤ x := hout
    have hxl : x / maxUsed < l.length := Nat.lt_of_lt_of_le hx h.first.length_le
    rw [byteOf_store_of_not_mem hblock hnodup hxl (by rw [htake]; omega)]
    exact h.kept x hx (by omega)

theorem Coherent.not_mem_of_ne {i : ℕ} {c : ℕ} (h : Coherent v free cells) (hi : i ≠ id) (hb : b ∈ cells i)
    (hc : c ∈ cells id) : b ≠ c := by
  rintro rfl
  exact h.laid.disjoint i id hi hb hc

/-- Bytes go to a block of the file, and so to no other file. -/
theorem Writing.Holds.untouched_fillBlock (h : w.Holds v₀ l₀ id start buf (cells id) k)
    (hvol : Coherent w.vol free cells) (n : ℕ) : w.vol.Untouched (w.fillBlock n).vol id :=
  hvol.untouched fun _ hi => ⟨rfl, rfl, fun _ hb => ⟨update_of_ne (hvol.not_mem_of_ne hi hb h.mem) _ _, rfl⟩⟩

theorem Linked.getElem?_next {next : ℕ → ℕ} {p : ℕ} (h : Linked next 0 p l) (hb : l[k]? = some b) :
    (next b ≠ 0 → l[k + 1]? = some (next b)) ∧ (next b = 0 → k + 1 = l.length) := by
  induction k generalizing p l with
  | zero =>
    cases l with
    | nil => cases hb
    | cons c l =>
      cases hb
      obtain ⟨rfl, -, hrest⟩ := h
      refine ⟨fun hne => ?_, fun hzero => ?_⟩
      · obtain ⟨l', rfl, -⟩ := hrest.exists_cons hne
        rfl
      · rw [hzero] at hrest
        rw [hrest.eq_nil]
        rfl
  | succ k ih =>
    cases l with
    | nil => cases hb
    | cons c l =>
      obtain ⟨hnext, hzero⟩ := ih h.2.2 hb
      exact ⟨hnext, fun h0 => by rw [List.length_cons, ← hzero h0]⟩

/-- A write goes from one volume to another with its file in the chain `l`. -/
def Moves (v v' : Volume) (cells : ℕ → List ℕ) (id : ℕ) (l : List ℕ) : Prop :=
  (∃ free', Coherent v' free' (update cells id l)) ∧ v.Untouched v' id

theorem moves_self (h : Coherent v free cells) : Moves v v cells id (cells id) :=
  ⟨⟨free, by rw [update_eq_self]; exact h⟩, untouched_self v id⟩

theorem Writing.Holds.moves_fillBlock (h : w.Holds v₀ l₀ id start buf (cells id) k) (hvol : Coherent w.vol free cells)
    (n : ℕ) : Moves w.vol (w.fillBlock n).vol cells id (cells id) :=
  ⟨⟨free, by rw [update_eq_self]; exact hvol.congr rfl rfl⟩, h.untouched_fillBlock hvol n⟩

/-- A block that has been taken from the free chain belongs to no file. -/
theorem Coherent.untouched_taken {new : ℕ} {rest : List ℕ} (h : Coherent v free cells)
    (htaken : Taken (recount v.toState free) cells 1 new new (recount s rest) [new] rest) (id : ℕ) (y : Option Node) :
    v.Untouched (v.withState (s.setNode id y)) id := by
  have hnode : s.node = v.node := htaken.node_eq
  have hnext : s.next = update v.next new 0 := htaken.next_eq
  refine h.untouched fun i hi => ⟨(update_of_ne hi _ _).trans (congrFun hnode i), rfl, fun b hb => ⟨rfl, ?_⟩⟩
  have hnew : b ≠ new := by
    rintro rfl
    exact htaken.taken_cells i hb (List.mem_singleton_self b)
  exact (congrFun hnext b).trans (update_of_ne hnew _ _)

theorem Writing.Holds.addBlock {new : ℕ} {rest : List ℕ} (h : w.Holds v₀ l₀ id start buf (cells id) k)
    (hvol : Coherent w.vol free cells) (hlast : k + 1 = (cells id).length) (hnext : w.vol.next w.block = 0)
    (htaken : Taken (recount w.vol.toState free) cells 1 new new (recount s rest) [new] rest) :
    (w.addBlock id new s).Holds v₀ l₀ id start buf (cells id ++ [new]) (k + 1) ∧
      Moves w.vol (w.addBlock id new s).vol cells id (cells id ++ [new]) := by
  have hbytes : ∀ x, x / maxUsed < (cells id).length →
      (w.addBlock id new s).vol.byteOf (cells id ++ [new]) x = w.vol.byteOf (cells id) x := by
    intro x hx
    change w.vol.data ((cells id ++ [new]).getD (x / maxUsed) 0) (x % maxUsed) =
      w.vol.data ((cells id).getD (x / maxUsed) 0) (x % maxUsed)
    rw [List.getD_eq_getElem?_getD, List.getD_eq_getElem?_getD, List.getElem?_append_left hx]
  refine ⟨⟨update_self _ _ _, h.kind, h.first.trans (List.prefix_append _ _), ?_, ?_, fun hnr => ?_, h.start_eq, h.pos_eq,
    h.res_le, h.buf_eq, h.size, fun x hle hlt => ?_, fun x hx hout => ?_⟩,
    ⟨rest, hvol.addBlock h.node h.kind h.mem hnext htaken⟩, fun i hi => ?_⟩
  · rw [hlast, List.getElem?_append_right (Nat.le_refl _), Nat.sub_self]
    rfl
  · have := h.longest
    rw [List.length_append, List.length_singleton]
    omega
  · have hpos : 0 < w.nr := by
      have : 0 < w.nr - 1 := hnr
      omega
    exact ⟨by rw [List.length_append, List.length_singleton, hlast], (h.last hpos).2⟩
  · obtain ⟨hx, hbyte⟩ := h.stored x hle hlt
    refine ⟨by rw [List.length_append]; omega, ?_⟩
    rw [hbytes x hx]
    exact hbyte
  · rw [hbytes x (Nat.lt_of_lt_of_le hx h.first.length_le)]
    exact h.kept x hx hout
  · obtain ⟨hnode, hsize, hblocks⟩ := hvol.untouched_taken htaken id
      (some { w.node with nrBlock := w.node.nrBlock + 1 }) i hi
    refine ⟨hnode, hsize, fun nd l hnd hchain b hb => ⟨(hblocks nd l hnd hchain b hb).1, ?_⟩⟩
    refine Eq.trans ?_ (hblocks nd l hnd hchain b hb).2
    obtain rfl := Chain.unique hchain (hvol.laid.node i nd hnd)
    exact update_of_ne (hvol.not_mem_of_ne hi hb h.mem) _ _

/-- The write goes on to the next block of the file, which may be a new one, or there is none. -/
theorem Writing.Holds.nextBlock (h : w.Holds v₀ l₀ id start buf (cells id) k) (hvol : Coherent w.vol free cells)
    (a : Calls) :
    (∃ l' w', w.nextBlock id a = .inr w' ∧ w'.Holds v₀ l₀ id start buf l' (k + 1) ∧ Moves w.vol w'.vol cells id l' ∧
        w'.nr = w.nr - 1 ∧ w'.start = w.start) ∨
      ∃ e, w.nextBlock id a = .inl { w with ret := some e } ∧
        w.vol.toState.getBlock (a.read .get) 1 = .error e ∧ k + 1 = (cells id).length := by
  obtain ⟨hnext, hend⟩ := Linked.getElem?_next (h.linked hvol) h.block
  rw [Writing.nextBlock]
  by_cases hzero : w.vol.next w.block = 0
  · rw [if_neg (not_not.mpr hzero)]
    cases hget : w.vol.toState.getBlock (a.read .get) 1 with
    | error e => exact .inr ⟨e, rfl, rfl, hend hzero⟩
    | ok r =>
      obtain ⟨new, tail, s⟩ := r
      obtain ⟨rest, htaken, -⟩ := hvol.getBlock_one hget
      obtain ⟨hholds, hmoves⟩ := h.addBlock hvol (hend hzero) hzero htaken
      exact .inl ⟨_, _, rfl, hholds, hmoves, rfl, rfl⟩
  · rw [if_pos hzero]
    have hblock := hnext hzero
    obtain ⟨hk, -⟩ := List.getElem?_eq_some_iff.mp hblock
    have hlongest := h.longest
    have hnr : ¬ 0 < w.nr := fun hpos => by
      have := (h.last hpos).1
      omega
    refine .inl ⟨cells id, _, rfl, { h with block := hblock, longest := by omega, last := fun hpos => ?_ },
      moves_self hvol, rfl, rfl⟩
    have : 0 < w.nr - 1 := hpos
    omega

/-! ## Sizes and blocks -/

/-- The number of blocks for a size. -/
def blocksFor (size : ℕ) : ℕ := (size + maxUsed - 1) / maxUsed

theorem offT_of_lt {x : ℕ} (h : x < 2 ^ 31) : offT x = (x : ℤ) := by rw [offT, if_pos h]

/-- The assertions are about the number of blocks that a size needs. -/
theorem asserted_blocksFor (size : ℕ) (h : size < 2 ^ 31) : Asserted (blocksFor size) size := by
  simp only [Asserted, AssertedBlocks, AssertedSize, blocksFor, maxUsed]
  constructor
  · intro hpos
    rw [Nat.mod_eq_of_lt (by omega)]
    omega
  · rw [Nat.mod_eq_of_lt (by omega)]
    omega

/-- A file has as many blocks as its size needs. -/
def Volume.Tight (v : Volume) (id : ℕ) : Prop :=
  ∀ nd, v.node id = some nd → nd.kind = .regular → v.size id < 2 ^ 31 ∧ nd.nrBlock = blocksFor (v.size id)

/-- The file of a write as it was when the write began. -/
structure Began (v₀ : Volume) (l₀ : List ℕ) (id start : ℕ) (buf : List Byte) : Prop where
  node : ∃ nd, v₀.node id = some nd ∧ nd.nrBlock = l₀.length ∧ (l₀ ≠ [] → Linked v₀.next 0 nd.rdev l₀)
  size_lt : v₀.size id < 2 ^ 31
  length : l₀.length = blocksFor (v₀.size id)
  range : start + buf.length < 2 ^ 31

/-- A write is at `write_a_block`. Bytes are left, and it is at the block of the next one or so many before it. -/
structure Writing.Going (w : Writing) (v₀ : Volume) (l₀ : List ℕ) (id start : ℕ) (buf : List Byte) (l : List ℕ)
    (k : ℕ) : Prop extends Writing.Holds w v₀ l₀ id start buf l k where
  here : k + w.nr = w.start / maxUsed
  left : w.res < buf.length

/-- A write is at `tail_2`, with as many blocks as the new size will need. -/
structure Writing.Ended (w : Writing) (v₀ : Volume) (l₀ : List ℕ) (id start : ℕ) (buf : List Byte) (l : List ℕ)
    (k : ℕ) : Prop extends Writing.Holds w v₀ l₀ id start buf l k where
  blocks : l.length = blocksFor (max (v₀.size id) w.start)

/-- What a round of a write needs. Its block can be read, or the write has not given the file a block yet. As long as it is
on the way to a first byte behind the end of the file, the block can be read and there is another one. -/
def Writing.Ready (w : Writing) (v₀ : Volume) (id start : ℕ) (a : Calls) : Prop :=
  (a.read .data w.block = false → (v₀.node id).map Node.nrBlock = some w.node.nrBlock) ∧
    (0 < w.nr → v₀.size id < start → a.read .data w.block = true ∧ 0 < w.vol.nrFree ∧ w.vol.free ≠ 0 ∧
      a.read .get w.vol.free = true)

theorem getBlock_one_ne_error (hcount : 0 < s.nrFree) (hfree : s.free ≠ 0) (hread : read s.free = true) (e : Errno) :
    s.getBlock read 1 ≠ .error e := by
  rw [State.getBlock, if_neg Nat.one_ne_zero, if_neg (by omega), takeBlocks, if_pos ⟨hfree, hread⟩, if_pos rfl]
  exact fun herror => by cases herror

theorem Writing.Holds.length_eq (h : w.Holds v₀ l₀ id start buf (cells id) k) (hvol : Coherent w.vol free cells) :
    (cells id).length = w.node.nrBlock := hvol.length h.node h.kind

/-- Before its first byte a write that does not start behind the end of the file has one block to go and has added none. -/
theorem Writing.Going.on_the_edge (h : w.Going v₀ l₀ id start buf l k) (hbegan : Began v₀ l₀ id start buf)
    (hnr : 0 < w.nr) (hle : start ≤ v₀.size id) : l.length = l₀.length ∧ start ≤ l₀.length * maxUsed := by
  obtain ⟨hlast, hres⟩ := h.last hnr
  have hhere := h.here
  have hstart := h.start_eq
  have hlongest := h.longest
  have hlength := hbegan.length
  simp only [blocksFor, maxUsed] at hlength hhere ⊢
  omega

theorem Writing.Going.round (h : w.Going v₀ l₀ id start buf (cells id) k) (hvol : Coherent w.vol free cells)
    (hbegan : Began v₀ l₀ id start buf) (hready : w.Ready v₀ id start a) :
    (∃ w' l' k', w.round id (start + buf.length) a = .inl w' ∧ w'.Ended v₀ l₀ id start buf l' k' ∧
        Moves w.vol w'.vol cells id l') ∨
      ∃ w' l' k', w.round id (start + buf.length) a = .inr w' ∧ w'.Going v₀ l₀ id start buf l' k' ∧
        Moves w.vol w'.vol cells id l' := by
  obtain ⟨hread, hspace⟩ := hready
  have hrange := hbegan.range
  have hlength : w.buf.length = buf.length - w.res := by rw [h.buf_eq, List.length_drop]
  have hhere := h.here
  have hleft := h.left
  have hstart := h.start_eq
  have hlongest := h.longest
  have hneeded := hbegan.length
  rw [Writing.round]
  by_cases hdata : a.read .data w.block = false
  · -- the block cannot be read: the write ends where it is, with the blocks that the file had
    obtain ⟨nd, hnode, hnr, -⟩ := hbegan.node
    have hsame : l₀.length = (cells id).length := by
      have hadded := hread hdata
      rw [hnode, Option.map_some] at hadded
      rw [h.length_eq hvol, ← hnr]
      exact Option.some.inj hadded
    rw [if_pos hdata]
    refine .inl ⟨w, cells id, k, rfl, ⟨h.toHolds, ?_⟩, moves_self hvol⟩
    by_cases hpos : 0 < w.nr
    · have hle : start ≤ v₀.size id := by
        by_contra hlt
        rw [(hspace hpos (by omega)).1] at hdata
        cases hdata
      obtain ⟨-, hedge⟩ := h.on_the_edge hbegan hpos hle
      have hres := (h.last hpos).2
      rw [hstart, hres, Nat.add_zero, Nat.max_eq_left hle]
      omega
    · simp only [blocksFor, maxUsed] at hneeded hhere ⊢
      omega
  · rw [if_neg hdata]
    by_cases hpos : 0 < w.nr
    · rw [if_pos hpos]
      rcases h.nextBlock hvol a with ⟨l', w', heq, h', hmoves, hnr', hstart'⟩ | ⟨e, heq, hget, hlast⟩
      · have hres' := h'.start_eq
        exact .inr ⟨w', l', k + 1, heq, ⟨h', by rw [hstart', ← hhere]; omega, by omega⟩, hmoves⟩
      · refine .inl ⟨_, cells id, k, heq, ⟨{ h.toHolds with }, ?_⟩, moves_self hvol⟩
        have hle : start ≤ v₀.size id := by
          by_contra hlt
          obtain ⟨-, hcount, hfree, hget'⟩ := hspace hpos (by omega)
          exact getBlock_one_ne_error hcount hfree hget' e hget
        have hedge := h.on_the_edge hbegan hpos hle
        have hres := (h.last hpos).2
        change (cells id).length = blocksFor (max (v₀.size id) w.start)
        rw [hstart, hres, Nat.add_zero, Nat.max_eq_left hle]
        omega
    · rw [if_neg hpos]
      have hk : k = w.start / maxUsed := by omega
      have hamount := h.amount_eq (show start + buf.length < 2 ^ 32 by omega)
      generalize w.amount (start + buf.length) = n at hamount ⊢
      have hmin : n ≤ maxUsed - w.start % maxUsed ∧ n ≤ w.buf.length ∧ 0 < n ∧
          (n = maxUsed - w.start % maxUsed ∨ n = w.buf.length) := by
        have : w.start % maxUsed < maxUsed := Nat.mod_lt _ (by decide)
        omega
      obtain ⟨hn₁, hn₂, hn₃, hn₄⟩ := hmin
      have hmod : w.start % maxUsed < maxUsed := Nat.mod_lt _ (by decide)
      have hfill := h.fillBlock (n := n) (h.linked hvol).nodup (by omega) hk (by omega) hn₂ (by omega)
      have hfilled := h.moves_fillBlock hvol n
      have hstart' : (w.fillBlock n).start = w.start + n := by
        change (w.start + n) % 2 ^ 32 = w.start + n
        exact Nat.mod_eq_of_lt (by omega)
      have hres : (w.fillBlock n).res = w.res + n := rfl
      -- the write is behind a byte of block `k` now
      have hblocks : (cells id).length = blocksFor (max (v₀.size id) (w.fillBlock n).start) := by
        rw [hstart']
        simp only [blocksFor, maxUsed] at hneeded hk hn₁ hmod ⊢
        omega
      by_cases hend : (w.fillBlock n).start = start + buf.length
      · rw [if_pos hend]
        exact .inl ⟨_, cells id, k, rfl, ⟨hfill, hblocks⟩, hfilled⟩
      · rw [if_neg hend]
        have hvol' : Coherent (w.fillBlock n).vol free cells := hvol.congr rfl rfl
        rcases hfill.nextBlock hvol' a with ⟨l', w', heq, h', ⟨hcoherent, hothers⟩, hnr', hnext⟩ | ⟨e, heq, -, -⟩
        · have hnr'' : w'.nr = 0 := by
            have : (w.fillBlock n).nr = w.nr := rfl
            omega
          have hres' : w'.res = w.res + n := by
            have := h'.start_eq
            omega
          refine .inr ⟨w', l', k + 1, heq, ⟨h', ?_, by omega⟩, hcoherent, fun i hi => ?_⟩
          · rw [hnext, hstart', hnr'']
            simp only [maxUsed] at hk hn₁ hn₄ hmod ⊢
            omega
          · obtain ⟨hnode, hsize, hblocks'⟩ := hothers i hi
            obtain ⟨hnode₁, hsize₁, hblocks₁⟩ := hfilled.2 i hi
            refine ⟨hnode.trans hnode₁, hsize.trans hsize₁, fun nd l hnd hchain b hb => ?_⟩
            obtain ⟨hd, hx⟩ := hblocks' nd l hnd hchain b hb
            obtain ⟨hd₁, hx₁⟩ := hblocks₁ nd l hnd hchain b hb
            exact ⟨hd.trans hd₁, hx.trans hx₁⟩
        · exact .inl ⟨_, cells id, k, heq, ⟨{ hfill with }, hblocks⟩, hfilled⟩

/-! ## The beginning and the end of a write -/

theorem holds_begin {u : Volume} (v₀ : Volume) (nr : ℕ) (hnode : u.node id = some nd) (hkind : nd.kind = .regular) (hfirst : l₀ <+: l)
    (hb : l[k]? = some b) (hlongest : l.length = max l₀.length (k + 1)) (hlast : 0 < nr → k + 1 = l.length)
    (hsize : u.size id = v₀.size id) (hbytes : ∀ x, x / maxUsed < l₀.length → u.byteOf l x = v₀.byteOf l₀ x)
    (start : ℕ) (buf : List Byte) : (Writing.mk u nd b nr start buf start 0 none).Holds v₀ l₀ id start buf l k where
  node := hnode
  kind := hkind
  first := hfirst
  block := hb
  longest := hlongest
  last hnr := ⟨hlast hnr, rfl⟩
  start_eq := rfl
  pos_eq := rfl
  res_le := Nat.zero_le _
  buf_eq := rfl
  size := hsize
  stored x hle hlt := by
    have hlt' : x < start + 0 := hlt
    omega
  kept x hx _ := hbytes x hx

/-- A write begins at the block of its first byte or before it, with all of the old file there, or it fails. -/
theorem Coherent.begin (h : Coherent v free cells) (hnode : v.node id = some nd) (hkind : nd.kind = .regular)
    (hbuf : buf ≠ []) (hmemory : nd.nrBlock = 0 → a.memory .map = true) (start : ℕ) :
    (∃ w l k, Maps.enter v id nd a start start buf = (.ok w, w.vol) ∧ w.pos = start ∧
        w.Going v (cells id) id start buf l k ∧ Moves v w.vol cells id l) ∨ ∃ e, Maps.enter v id nd a start start buf = (.error e, v) := by
  have hlength := h.length hnode hkind
  have hleft : 0 < buf.length := List.length_pos_iff.mpr hbuf
  rw [Maps.enter]
  by_cases hzero : nd.nrBlock = 0
  · rw [if_pos hzero]
    split
    · exact .inr ⟨_, rfl⟩
    · rename_i new tail s hget
      obtain ⟨rest, htaken, -⟩ := h.getBlock_one hget
      have hnil : cells id = [] := List.eq_nil_of_length_eq_zero (hlength.trans hzero)
      have huntouched := h.untouched_taken htaken id (some { nd with rdev := new, nrBlock := 1 })
      rcases (h.firstBlock hnode hkind hzero htaken).enterFrom (update_self _ _ _) hkind
        Nat.one_ne_zero a start start buf with ⟨map, k, block, h', hblock, hk, heq⟩ | ⟨-, hblind⟩
      · rw [update_self] at hblock hk
        obtain rfl : k = 0 := by simpa using hk
        have hholds := holds_begin (u := (v.withState (s.setNode id (some { nd with rdev := new, nrBlock := 1 }))).setMap id map)
          v (start / maxUsed - 0) (update_self _ _ _) hkind (List.nil_prefix (l := [new])) hblock rfl
          (fun _ => rfl) rfl (fun x hx => absurd hx (Nat.not_lt_zero _)) start buf
        rw [hnil]
        exact .inl ⟨_, [new], 0, heq, rfl, ⟨hholds, by dsimp only; omega, hleft⟩, ⟨rest, h'⟩, huntouched⟩
      · -- there is memory for the map of one block, and no link to follow
        rw [Blind, hmemory hzero, update_self] at hblind
        simp at hblind
  · rw [if_neg hzero]
    rcases h.enterFrom hnode hkind hzero a start start buf with
      ⟨map, k, block, h', hblock, hk, heq⟩ | ⟨⟨e, heq⟩, -⟩
    · have hholds := holds_begin (u := v.setMap id map) v (start / maxUsed - k) hnode hkind
        (List.prefix_refl _) hblock (by omega) (by omega) rfl (fun _ _ => rfl) start buf
      exact .inl ⟨_, cells id, k, heq, rfl, ⟨hholds, by dsimp only; omega, hleft⟩,
        ⟨free, by rw [update_eq_self]; exact h'⟩, untouched_self v id⟩
    · exact .inr ⟨e, heq⟩

theorem Coherent.began (h : Coherent v free cells) (hnode : v.node id = some nd) (hkind : nd.kind = .regular)
    (htight : v.Tight id) (hrange : start + buf.length < 2 ^ 31) : Began v (cells id) id start buf := by
  obtain ⟨hsize, hblocks⟩ := htight nd hnode hkind
  have hlength := h.length hnode hkind
  refine ⟨⟨nd, hnode, hlength.symm, fun hne => (h.linked hnode hkind ?_).2⟩, hsize, hlength.trans hblocks, hrange⟩
  rw [← hlength]
  exact fun hzero => hne (List.eq_nil_of_length_eq_zero hzero)

theorem Writing.Ended.grown_eq (h : w.Ended v₀ l₀ id start buf l k) (hbegan : Began v₀ l₀ id start buf) :
    w.grown id = max (v₀.size id) (start + w.res) := by
  have hres := h.res_le
  have hsize := hbegan.size_lt
  have hrange := hbegan.range
  rw [Writing.grown, h.size, h.pos_eq, offT_of_lt hsize]
  split_ifs with hlt <;> omega

/-- A write leaves its file with as many blocks as the size needs. -/
theorem Writing.Ended.tight (h : w.Ended v₀ l₀ id start buf (cells id) k) (hvol : Coherent w.vol free cells)
    (hbegan : Began v₀ l₀ id start buf) : (w.vol.setSize id (w.grown id)).Tight id := by
  have hres := h.res_le
  have hsize := hbegan.size_lt
  have hrange := hbegan.range
  intro nd hnode hkind
  have hset : (w.vol.setSize id (w.grown id)).size id = w.grown id := update_self _ _ _
  obtain rfl : w.node = nd := Option.some.inj (h.node.symm.trans hnode)
  rw [hset, h.grown_eq hbegan, ← h.length_eq hvol, ← h.start_eq]
  exact ⟨by have := h.start_eq; omega, h.blocks⟩

theorem Writing.Ended.stored_bytes (h : w.Ended v₀ l₀ id start buf (cells id) k) (hvol : Coherent w.vol free cells)
    (hbegan : Began v₀ l₀ id start buf) :
    Stored v₀ (w.vol.setSize id (w.grown id)) id start w.res buf := by
  have hlinked := h.linked hvol
  refine ⟨h.res_le, fun x hx => ?_, fun x hx hout => ?_, ?_, ⟨w.node, cells id, h.node, hlinked, h.length_eq hvol⟩⟩
  · obtain ⟨hlt, hbyte⟩ := h.stored (start + x) (by omega) (by omega)
    rw [Nat.add_sub_cancel_left] at hbyte
    rw [← hbyte]
    exact byte_eq (v := w.vol.setSize id _) h.node hlinked hlt
  · obtain ⟨nd, hnode, -, hchain⟩ := hbegan.node
    have hlt : x / maxUsed < l₀.length := by
      rw [hbegan.length]
      simp only [blocksFor, maxUsed]
      omega
    have hne : l₀ ≠ [] := List.ne_nil_of_length_pos (Nat.lt_of_le_of_lt (Nat.zero_le _) hlt)
    rw [byte_eq hnode (hchain hne) hlt, ← h.kept x hlt hout]
    exact byte_eq (v := w.vol.setSize id _) h.node hlinked (Nat.lt_of_lt_of_le hlt h.first.length_le)
  · exact (update_self _ _ _).trans (h.grown_eq hbegan)

/-! ## Truncating -/

/-- A truncation has not stored a size yet, and has only changed links of its own file and of blocks that are no file's. -/
structure Moved (v v' : Volume) (cells : ℕ → List ℕ) (id : ℕ) : Prop where
  node : v'.node = v.node
  size : v'.size = v.size
  data : v'.data = v.data
  next : ∀ i ≠ id, ∀ b ∈ cells i, v'.next b = v.next b

theorem Moved.trans {u : Volume} (h : Moved v u cells id) (h' : Moved u v' cells id) : Moved v v' cells id :=
  ⟨h'.node.trans h.node, h'.size.trans h.size, h'.data.trans h.data,
    fun i hi b hb => (h'.next i hi b hb).trans (h.next i hi b hb)⟩

theorem moved_of_next {u : Volume} (hnode : u.node = v.node) (hsize : u.size = v.size) (hdata : u.data = v.data)
    (hnext : u.next = v.next) : Moved v u cells id :=
  ⟨hnode, hsize, hdata, fun _ _ b _ => congrFun hnext b⟩

theorem nthBlock_moved (v : Volume) (id : ℕ) (nd : Node) (a : Calls) (site : Site) (n : ℕ) :
    Moved v (nthBlock v id nd a site n).2 cells id := by
  rw [nthBlock]
  by_cases hkind : nd.kind = .regular
  · rw [if_neg (not_not.mpr hkind)]
    cases v.map id with
    | some map => exact moved_of_next rfl rfl rfl rfl
    | none =>
      dsimp only
      cases allocBlockMap v nd a site with
      | error e => exact moved_of_next rfl rfl rfl rfl
      | ok map =>
        dsimp only
        split_ifs <;> exact moved_of_next rfl rfl rfl rfl
  · rw [if_pos hkind]
    exact moved_of_next rfl rfl rfl rfl

theorem lookup_mem (l : List ℕ) (n : ℕ) : (lookup l n).2 ∈ l ∨ (lookup l n).2 = 0 := by
  rw [lookup, List.getD_eq_getElem?_getD, List.getD_eq_getElem?_getD]
  split_ifs with hnil hzero hlong
  · exact .inr rfl
  · rw [List.getElem?_eq_getElem (by omega), Option.getD_some]
    exact .inl (List.getElem_mem _)
  · exact .inr rfl
  · rw [List.getElem?_eq_getElem (by omega), Option.getD_some]
    exact .inl (List.getElem_mem _)

/-- The block that a truncation asks for is one of its file. -/
theorem Coherent.stored_mem (h : Coherent v free cells) (id : ℕ) (hnode : v.node id = some nd)
    (hkind : nd.kind = .regular) (a : Calls) (site : Site) (n : ℕ) :
    stored (Maps.nthBlock v id nd a site n).1 ∈ cells id ∨ stored (Maps.nthBlock v id nd a site n).1 = 0 := by
  rcases h.nthBlock hnode hkind a site n with ⟨map, heq, -⟩ | ⟨⟨e, heq⟩, -⟩ <;> rw [heq]
  · exact lookup_mem _ n
  · exact .inr rfl

theorem Coherent.zero_not_mem {i : ℕ} (h : Coherent v free cells) : 0 ∉ cells i := by
  cases hnode : v.node i with
  | none =>
    rw [h.laid.gone i hnode]
    exact List.not_mem_nil
  | some nd => exact (h.laid.node i nd hnode).zero_not_mem

/-- A link of a block that is in no other file changes. -/
theorem moved_setNext {c : ℕ} (hc : ∀ i ≠ id, c ∉ cells i) (m : ℕ) :
    Moved v (v.withState (v.setNext c m)) cells id := by
  refine ⟨rfl, rfl, rfl, fun i hi b hb => update_of_ne ?_ _ _⟩
  rintro rfl
  exact hc i hi hb

theorem moved_putBlock {tail : ℕ} (hc : ∀ i ≠ id, tail ∉ cells i) (a : Calls) (head : ℕ) :
    Moved v (v.putBlock a head tail) cells id := by
  rcases putBlock_eq v a head tail with heq | heq <;> rw [heq]
  · exact moved_of_next rfl rfl rfl rfl
  · refine ⟨rfl, rfl, rfl, fun i hi b hb => update_of_ne ?_ _ _⟩
    rintro rfl
    exact hc i hi hb

/-- A truncation leaves the inode, or it sets the size and the number of blocks at its end. -/
def Resized (v v' : Volume) (cells : ℕ → List ℕ) (id : ℕ) (nd : Node) (size : ℕ) : Prop :=
  ∃ u, Moved v u cells id ∧ (v' = u ∨ ∃ rdev, v' = u.truncated id nd rdev (blocksFor size) size)

theorem Coherent.truncate_resized (h : Coherent v free cells) (hnode : v.node id = some nd) (hkind : nd.kind = .regular)
    (a : Calls) (size : ℕ) : Resized v (Maps.truncate v id nd a size) cells id nd size := by
  have h₁ := h.destroyMap id
  have hmoved₁ : Moved v (v.destroyMap id) cells id := moved_of_next rfl rfl rfl rfl
  have hapart : ∀ {c}, c ∈ cells id ∨ c = 0 → ∀ i ≠ id, c ∉ cells i := by
    rintro c (hc | rfl) i hi hmem
    · exact h.laid.disjoint i id hi hmem hc
    · exact h.zero_not_mem hmem
  rw [Maps.truncate]
  dsimp only
  rw [show (size + maxUsed - 1) / maxUsed = blocksFor size from rfl]
  by_cases hgrow : nd.nrBlock < blocksFor size
  · rw [if_pos hgrow]
    split
    · exact ⟨_, hmoved₁, .inl rfl⟩
    · rename_i head tail s hget
      obtain ⟨taken, rest, htaken, h₂, hsame⟩ := h₁.getBlock hget
      have htail : ∀ i, tail ∉ cells i := fun i hmem => htaken.taken_cells i hmem htaken.mem
      have hmoved₂ : Moved v ((v.destroyMap id).withState s) cells id := by
        refine ⟨hsame, rfl, rfl, fun i _ b hb => ?_⟩
        have hnext : s.next = update v.next tail 0 := htaken.next_eq
        refine (congrFun hnext b).trans (update_of_ne ?_ _ _)
        rintro rfl
        exact htail i hb
      split_ifs
      · exact ⟨_, hmoved₂, .inr ⟨head, rfl⟩⟩
      · have hmoved₃ := hmoved₂.trans (nthBlock_moved ((v.destroyMap id).withState s) id nd a .map 0)
        have hlast := h₂.stored_mem id (hsame ▸ hnode) hkind a .map 0
        generalize Maps.nthBlock ((v.destroyMap id).withState s) id nd a .map 0 = r at hmoved₃ hlast ⊢
        obtain ⟨_ | ⟨ret, last⟩, u⟩ := r
        · exact ⟨u, hmoved₃, .inl rfl⟩
        · dsimp only at hmoved₃ ⊢
          split_ifs
          · exact ⟨u, hmoved₃, .inl rfl⟩
          · exact ⟨_, hmoved₃.trans (moved_setNext (hapart hlast) head), .inr ⟨nd.rdev, rfl⟩⟩
          · exact ⟨_, hmoved₃.trans (moved_putBlock (fun i _ => htail i) a head), .inl rfl⟩
  · rw [if_neg hgrow]
    by_cases hshrink : blocksFor size < nd.nrBlock
    · rw [if_pos hshrink]
      have hmoved₂ := hmoved₁.trans (nthBlock_moved (v.destroyMap id) id nd a .map 0)
      have htail := h₁.stored_mem id hnode hkind a .map 0
      obtain ⟨map, heq, h₂⟩ := h₁.nthBlock_snd hnode hkind a .map 0
      rw [heq] at hmoved₂ ⊢
      generalize stored (Maps.nthBlock (v.destroyMap id) id nd a .map 0).1 = tail at htail ⊢
      split_ifs with hzero
      · refine ⟨_, hmoved₂.trans (moved_putBlock (hapart htail) a nd.rdev), .inr ⟨marioZeroEntry, ?_⟩⟩
        rw [hzero]
      · have hmoved₃ := hmoved₂.trans (nthBlock_moved ((v.destroyMap id).setMap id map) id nd a .mapAgain (blocksFor size))
        have hlast := h₂.stored_mem id hnode hkind a .mapAgain (blocksFor size)
        generalize Maps.nthBlock ((v.destroyMap id).setMap id map) id nd a .mapAgain (blocksFor size) = r at hmoved₃ hlast ⊢
        obtain ⟨_ | ⟨ret, last⟩, u⟩ := r
        · exact ⟨u, hmoved₃, .inl rfl⟩
        · dsimp only at hmoved₃ ⊢
          split_ifs
          · exact ⟨u, hmoved₃, .inl rfl⟩
          · exact ⟨_, (hmoved₃.trans (moved_setNext (hapart hlast) 0)).trans (moved_putBlock (hapart htail) a _),
              .inr ⟨nd.rdev, rfl⟩⟩
          · exact ⟨u, hmoved₃, .inl rfl⟩
    · rw [if_neg hshrink]
      exact ⟨_, hmoved₁, .inr ⟨nd.rdev, rfl⟩⟩

/-! ## Open files -/

/-- What `mario_file_write` is called for: an open file, which appends or not and has a position, and some bytes. `began` is
the volume in which the semaphore was taken, of which only the size is read, by an append. -/
structure Call where
  file : ℕ
  append : Bool
  pos : ℕ
  buf : List Byte
  began : Volume

/-- `start`, at the beginning of a write of the inode. -/
def Call.offset (c : Call) (id : ℕ) : ℕ := if c.append then c.began.size id else c.pos % 2 ^ 32

/-- `end`. -/
def Call.stop (c : Call) (id : ℕ) : ℕ := (c.offset id + c.buf.length) % 2 ^ 32

/-- What the one that holds the semaphore of an inode is doing. -/
inductive Held
  /-- A write is at `write_a_block`. -/
  | writing (c : Call) (w : Writing)
  /-- A write is at `tail_2`. -/
  | ending (c : Call) (w : Writing)
  /-- A truncation has stored `i_size`. Others still see the old `i_nr_block`. -/
  | truncating (nrBlock : ℕ)

/-- A volume, the positions of the open files, who holds the semaphores of the inodes, and how many writes of an inode have
given its semaphore back and come to the first and to the second assertion. -/
structure Files where
  vol : Volume
  pos : ℕ → ℕ
  held : ℕ → Option Held
  leaving : ℕ → ℕ
  halfway : ℕ → ℕ

/-- A write goes on with the volume and the position of the file as they are now. -/
def Files.resume (fs : Files) (c : Call) (w : Writing) : Writing := { w with vol := fs.vol, pos := fs.pos c.file }

/-- The `i_nr_block` that is seen without the semaphore. -/
def Files.nrBlock (fs : Files) (id : ℕ) : ℕ :=
  match fs.held id with
  | some (.truncating nrBlock) => nrBlock
  | _ => ((fs.vol.node id).map Node.nrBlock).getD 0

/-- `mario_file_write` from `down` to `write_a_block`. A write that fails gives the semaphore back. -/
def Files.begin (fs : Files) (id : ℕ) (nd : Node) (c : Call) (a : Calls) : Files :=
  match enter fs.vol id nd a (c.offset id) c.pos c.buf with
  | (.error _, v) => { fs with vol := v }
  | (.ok w, v) => { fs with vol := v, held := update fs.held id (some (.writing c w)) }

/-- From `write_a_block` to the next block or to `tail_2`. -/
def Files.round (fs : Files) (id : ℕ) (c : Call) (w : Writing) (a : Calls) : Files :=
  match (fs.resume c w).round id (c.stop id) a with
  | .inl w =>
      { fs with vol := w.vol, pos := update fs.pos c.file w.pos, held := update fs.held id (some (.ending c w)) }
  | .inr w =>
      { fs with vol := w.vol, pos := update fs.pos c.file w.pos, held := update fs.held id (some (.writing c w)) }

/-- From `tail_2` to `up`. A write that returns its error has no assertions to check. -/
def Files.finish (fs : Files) (id : ℕ) (w : Writing) : Files :=
  { fs with
    vol := w.vol.setSize id (w.grown id)
    held := update fs.held id none
    leaving := if w.ret.isSome ∧ w.res = 0 then fs.leaving else update fs.leaving id (fs.leaving id + 1) }

inductive Whence
  | set
  | cur
  | fromEnd
  deriving DecidableEq

/-- An `int` of 32 bits. -/
def toInt (x : ℤ) : ℤ := offT (x % 2 ^ 32).toNat

/-- The position that `sys_lseek` is asked for. -/
def seekTarget (size pos : ℕ) (offset : ℤ) : Whence → ℤ
  | .set => toInt offset
  | .cur => toInt (pos + offset)
  | .fromEnd => toInt (offT size + offset)

/-- `sys_lseek`. There are no holes behind the end of a file. -/
def lseek (size pos : ℕ) (offset : ℤ) (origin : Whence) : ℕ :=
  let tmp := seekTarget size pos offset origin
  if tmp < 0 ∨ offT size < tmp then pos else tmp.toNat

/-- What happens to open files, in steps between which others can run. The flags of an open file can change between two
writes. -/
inductive Request
  | lseek (f : ℕ) (offset : ℤ) (origin : Whence)
  | write (f : ℕ) (append : Bool) (buf : List Byte) (a : Calls)
  | round (id : ℕ) (a : Calls)
  | finish (id : ℕ)
  | assertBlocks (id : ℕ)
  | assertSize (id : ℕ)
  /-- `mario_file_truncate` up to the store of `i_size`. The new size is an `int`, and a negative one is refused. -/
  | truncate (id size : ℕ) (a : Calls)
  /-- It stores `i_nr_block`, and the semaphore is given back. -/
  | truncated (id : ℕ)

/-- A step, where `ino f` is the inode of an open file. `sys_write` does not call the filesystem for no bytes, and the machine
stops at an assertion that fails. -/
def Files.exec (ino : ℕ → ℕ) (fs : Files) : Request → Option Files
  | .lseek f offset origin =>
      some { fs with pos := update fs.pos f (Maps.lseek (fs.vol.size (ino f)) (fs.pos f) offset origin) }
  | .write f append buf a =>
      match fs.vol.node (ino f), fs.held (ino f) with
      | some nd, none =>
          some (if nd.kind = .regular ∧ buf ≠ [] then fs.begin (ino f) nd ⟨f, append, fs.pos f, buf, fs.vol⟩ a else fs)
      | _, _ => none
  | .round id a =>
      match fs.held id with
      | some (.writing c w) => some (fs.round id c w a)
      | _ => none
  | .finish id =>
      match fs.held id with
      | some (.ending c w) => some (fs.finish id (fs.resume c w))
      | _ => none
  | .assertBlocks id =>
      if 0 < fs.leaving id ∧ AssertedBlocks (fs.nrBlock id) (fs.vol.size id) then
        some { fs with
          leaving := update fs.leaving id (fs.leaving id - 1)
          halfway := update fs.halfway id (fs.halfway id + 1) }
      else none
  | .assertSize id =>
      if 0 < fs.halfway id ∧ AssertedSize (fs.nrBlock id) (fs.vol.size id) then
        some { fs with halfway := update fs.halfway id (fs.halfway id - 1) }
      else none
  | .truncate id size a =>
      match fs.vol.node id, fs.held id with
      | some nd, none =>
          some (if nd.kind = .regular ∧ size < 2 ^ 31 then
            { fs with
              vol := Maps.truncate fs.vol id nd a size
              held := update fs.held id (some (.truncating nd.nrBlock)) }
          else fs)
      | _, _ => none
  | .truncated id =>
      match fs.held id with
      | some (.truncating _) => some { fs with held := update fs.held id none }
      | _ => none

def Files.Step (ino : ℕ → ℕ) (fs : Files) (q : Request) (fs' : Files) : Prop := fs.exec ino q = some fs'

/-- A write that begins well: one that appends is at the end of the file, the end is a positive `off_t`, and there is memory
for the map of a file that gets its first block. -/
structure Smooth (v : Volume) (id : ℕ) (nd : Node) (a : Calls) (append : Bool) (pos : ℕ) (buf : List Byte) : Prop where
  append : append = true → pos = v.size id
  range : pos + buf.length < 2 ^ 31
  memory : nd.nrBlock = 0 → a.memory .map = true

/-- Nobody is between the change of the number of blocks and the one of the size of a file, and the other way round: a write
that is under way has not given the file a block, and a truncation stores the number that is there. -/
def Files.Still (fs : Files) (id : ℕ) : Prop :=
  match fs.held id with
  | some (.writing c w) | some (.ending c w) => (c.began.node id).map Node.nrBlock = some w.node.nrBlock
  | some (.truncating nrBlock) => (fs.vol.node id).map Node.nrBlock = some nrBlock
  | none => True

/-- The open file is being written through. -/
def Files.Busy (ino : ℕ → ℕ) (fs : Files) (f : ℕ) : Prop :=
  ∃ c w, (fs.held (ino f) = some (.writing c w) ∨ fs.held (ino f) = some (.ending c w)) ∧ c.file = f

/-- The steps that do not go wrong. The position of a file that is being written through is not moved. -/
def Files.Smooth (ino : ℕ → ℕ) (fs : Files) : Request → Prop
  | .lseek f offset origin => fs.Busy ino f → Maps.lseek (fs.vol.size (ino f)) (fs.pos f) offset origin = fs.pos f
  | .write f append buf a => ∀ nd, fs.vol.node (ino f) = some nd → nd.kind = .regular →
      Maps.Smooth fs.vol (ino f) nd a append (fs.pos f) buf
  | .round id a => ∀ c w, fs.held id = some (.writing c w) → (fs.resume c w).Ready c.began id (c.offset id) a
  | .assertBlocks id | .assertSize id => fs.Still id
  | _ => True

/-- What is promised of the steps of a write: they leave the other files alone, and in the end what the write takes is stored
at its offset. -/
def Files.Writes (ino : ℕ → ℕ) (fs fs' : Files) : Request → Prop
  | .write f _ _ _ => fs.vol.Untouched fs'.vol (ino f)
  | .round id _ => fs.vol.Untouched fs'.vol id
  | .finish id => fs.vol.Untouched fs'.vol id ∧ ∀ c w, fs.held id = some (.ending c w) → 0 < w.res →
      Stored c.began fs'.vol id (c.offset id) w.res c.buf ∧ fs'.pos c.file = c.offset id + w.res
  | _ => True

/-- What is promised of the assertions: they hold. -/
def Files.Asserts (fs : Files) : Request → Prop
  | .assertBlocks id => ∀ nd, fs.vol.node id = some nd → nd.kind = .regular →
      AssertedBlocks (fs.nrBlock id) (fs.vol.size id)
  | .assertSize id => ∀ nd, fs.vol.node id = some nd → nd.kind = .regular →
      AssertedSize (fs.nrBlock id) (fs.vol.size id)
  | _ => True

/-! ## The invariant -/

variable {ino : ℕ → ℕ} {fs fs' : Files} {c : Call}

/-- What holds of an inode, by who has its semaphore. -/
def Files.Fits (ino : ℕ → ℕ) (fs : Files) (cells : ℕ → List ℕ) (id : ℕ) : Prop :=
  match fs.held id with
  | some (.writing c w) => ino c.file = id ∧ ∃ l₀ k, Began c.began l₀ id (c.offset id) c.buf ∧
      (fs.resume c w).Going c.began l₀ id (c.offset id) c.buf (cells id) k
  | some (.ending c w) => ino c.file = id ∧ ∃ l₀ k, Began c.began l₀ id (c.offset id) c.buf ∧
      (fs.resume c w).Ended c.began l₀ id (c.offset id) c.buf (cells id) k
  | some (.truncating _) | none => fs.vol.Tight id

/-- The chains are there, and every inode fits. -/
def Files.Inv (ino : ℕ → ℕ) (fs : Files) : Prop :=
  ∃ free cells, Coherent fs.vol free cells ∧ ∀ id, fs.Fits ino cells id

theorem fits_writing {u : Writing} (l₀ : List ℕ) (hheld : fs.held id = some (.writing c u)) (hfile : ino c.file = id)
    (hbegan : Began c.began l₀ id (c.offset id) c.buf) (hresume : fs.resume c u = u)
    (hgoing : u.Going c.began l₀ id (c.offset id) c.buf (cells id) k) : fs.Fits ino cells id := by
  rw [Files.Fits, hheld]
  exact ⟨hfile, l₀, k, hbegan, by rw [hresume]; exact hgoing⟩

theorem fits_ending {u : Writing} (hheld : fs.held id = some (.ending c u)) (hfile : ino c.file = id)
    (hbegan : Began c.began l₀ id (c.offset id) c.buf) (hresume : fs.resume c u = u)
    (hended : u.Ended c.began l₀ id (c.offset id) c.buf (cells id) k) : fs.Fits ino cells id := by
  rw [Files.Fits, hheld]
  exact ⟨hfile, l₀, k, hbegan, by rw [hresume]; exact hended⟩

/-- An inode still fits when its semaphore, its blocks and the position that its write uses are left alone. -/
theorem Files.Fits.frame (h : fs.Fits ino cells id) (hheld : fs'.held id = fs.held id)
    (hnode : fs'.vol.node id = fs.vol.node id) (hsize : fs'.vol.size id = fs.vol.size id)
    (hdata : ∀ b ∈ cells id, fs'.vol.data b = fs.vol.data b)
    (hpos : ∀ f, ino f = id → fs.Busy ino f → fs'.pos f = fs.pos f) : fs'.Fits ino cells id := by
  rw [Files.Fits] at h ⊢
  rw [hheld]
  have htight : fs.vol.Tight id → fs'.vol.Tight id := fun htight nd hnd hkind => by
    rw [hnode] at hnd
    rw [hsize]
    exact htight nd hnd hkind
  have hresume : ∀ {c w}, ino c.file = id → fs.held id = some (.writing c w) ∨ fs.held id = some (.ending c w) →
      fs'.resume c w = { fs.resume c w with vol := fs'.vol } := by
    rintro c w rfl hbusy
    rw [Files.resume, Files.resume, hpos c.file rfl ⟨c, w, hbusy, rfl⟩]
  cases hcase : fs.held id with
  | none =>
    rw [hcase] at h
    exact htight h
  | some held =>
    rw [hcase] at h
    cases held with
    | writing c w =>
      obtain ⟨hfile, l₀, k, hbegan, hgoing⟩ := h
      refine ⟨hfile, l₀, k, hbegan, ?_⟩
      rw [hresume hfile (.inl hcase)]
      exact { hgoing.toHolds.frame hnode hsize hdata with here := hgoing.here, left := hgoing.left }
    | ending c w =>
      obtain ⟨hfile, l₀, k, hbegan, hended⟩ := h
      refine ⟨hfile, l₀, k, hbegan, ?_⟩
      rw [hresume hfile (.inr hcase)]
      exact { hended.toHolds.frame hnode hsize hdata with blocks := hended.blocks }
    | truncating nrBlock => exact htight h

/-- A step of the one that holds the semaphore of an inode keeps the invariant when the inode still fits. -/
theorem Coherent.inv (hvol : Coherent fs.vol free cells) (hfits : ∀ i, fs.Fits ino cells i)
    (hmoves : Moves fs.vol fs'.vol cells id l) (hheld : ∀ i ≠ id, fs'.held i = fs.held i)
    (hpos : ∀ f, ino f ≠ id → fs'.pos f = fs.pos f) (hid : fs'.Fits ino (update cells id l) id) : fs'.Inv ino := by
  obtain ⟨⟨free', hvol'⟩, huntouched⟩ := hmoves
  refine ⟨free', _, hvol', fun i => ?_⟩
  by_cases hi : i = id
  · subst hi
    exact hid
  · obtain ⟨hnode, hsize, -⟩ := huntouched i hi
    have hframe := (hfits i).frame (hheld i hi) hnode hsize
      (fun b hb => (hvol.untouched_cell huntouched hi hb).1) (fun f hf _ => hpos f (by rw [hf]; exact hi))
    rw [Files.Fits, update_of_ne hi]
    exact hframe

theorem Files.Fits.tight (h : fs.Fits ino cells id) (hheld : fs.held id = none) : fs.vol.Tight id := by
  rw [Files.Fits, hheld] at h
  exact h

theorem Smooth.offset_eq (h : Smooth v id nd a c.append c.pos c.buf) (hbegan : c.began = v) : c.offset id = c.pos := by
  have hrange := h.range
  rw [Call.offset, hbegan]
  cases happend : c.append with
  | true => exact (h.append happend).symm
  | false => exact Nat.mod_eq_of_lt (by omega)

theorem Files.Inv.lseek {f : ℕ} {offset : ℤ} {origin : Whence} (h : fs.Inv ino)
    (hgood : fs.Smooth ino (.lseek f offset origin)) (hstep : fs.Step ino (.lseek f offset origin) fs') : fs'.Inv ino := by
  obtain ⟨free, cells, hvol, hfits⟩ := h
  cases hstep
  refine ⟨free, cells, hvol, fun id => (hfits id).frame rfl rfl rfl (fun _ _ => rfl) fun g _ hbusy => ?_⟩
  by_cases hg : g = f
  · subst hg
    exact (update_self _ _ _).trans (hgood hbusy)
  · exact update_of_ne hg _ _

/-- A write takes the semaphore and begins. -/
theorem Files.Inv.begin {f : ℕ} {append : Bool} (h : fs.Inv ino) (hgood : fs.Smooth ino (.write f append buf a))
    (hstep : fs.Step ino (.write f append buf a) fs') : fs'.Inv ino ∧ fs.vol.Untouched fs'.vol (ino f) := by
  obtain ⟨free, cells, hvol, hfits⟩ := h
  rw [Files.Step, Files.exec] at hstep
  split at hstep
  · rename_i nd hnode hheld
    cases hstep
    split_ifs with hcond
    · obtain ⟨hkind, hbuf⟩ := hcond
      have hsmooth := hgood nd hnode hkind
      have htight := (hfits (ino f)).tight hheld
      obtain ⟨c, hc⟩ : ∃ c : Call, c = ⟨f, append, fs.pos f, buf, fs.vol⟩ := ⟨_, rfl⟩
      have hoffset : c.offset (ino f) = c.pos := by
        subst hc
        exact hsmooth.offset_eq rfl
      rw [← hc, Files.begin, hoffset]
      rcases hvol.begin hnode hkind (show c.buf ≠ [] by rw [hc]; exact hbuf) hsmooth.memory c.pos with
        ⟨w, l, k, heq, hpos, hgoing, hmoves⟩ | ⟨e, heq⟩
      · rw [heq]
        refine ⟨hvol.inv hfits hmoves (fun i hi => update_of_ne hi _ _) (fun _ _ => rfl) ?_, hmoves.2⟩
        have hbegan : c.began = fs.vol := by rw [hc]
        have hfile : c.file = f := by rw [hc]
        have hpos' : fs.pos c.file = w.pos := by rw [hpos, hc]
        refine fits_writing (cells (ino f)) (k := k) (update_self _ _ _) (by rw [hfile]) ?_ ?_ ?_
        · rw [hoffset, hbegan, hc]
          exact hvol.began hnode hkind htight hsmooth.range
        · rw [Files.resume]
          dsimp only
          rw [hpos']
        · rw [update_self, hoffset, hbegan]
          exact hgoing
      · rw [heq]
        exact ⟨⟨free, cells, hvol, hfits⟩, untouched_self _ _⟩
    · exact ⟨⟨free, cells, hvol, hfits⟩, untouched_self _ _⟩
  · cases hstep

theorem Files.Inv.round (h : fs.Inv ino) (hgood : fs.Smooth ino (.round id a)) (hstep : fs.Step ino (.round id a) fs') :
    fs'.Inv ino ∧ fs.vol.Untouched fs'.vol id := by
  obtain ⟨free, cells, hvol, hfits⟩ := h
  rw [Files.Step, Files.exec] at hstep
  split at hstep
  · rename_i c w hheld
    cases hstep
    have hfit := hfits id
    rw [Files.Fits, hheld] at hfit
    obtain ⟨hfile, l₀, k, hbegan, hgoing⟩ := hfit
    have hstop : c.stop id = c.offset id + c.buf.length := Nat.mod_eq_of_lt (by have := hbegan.range; omega)
    have hround := hgoing.round hvol hbegan (hgood c w hheld)
    have hpos : ∀ p : ℕ, ∀ f, ino f ≠ id → update fs.pos c.file p f = fs.pos f := fun p f hf => by
      refine update_of_ne ?_ _ _
      rintro rfl
      exact hf hfile
    have hresume : ∀ (fs' : Files) (u : Writing), fs'.vol = u.vol → fs'.pos = update fs.pos c.file u.pos →
        fs'.resume c u = u := by
      intro fs' u hvol' hpos'
      rw [Files.resume, hvol', hpos', update_self]
    rw [Files.round, hstop]
    rcases hround with ⟨u, l, k', heq, hended, hmoves⟩ | ⟨u, l, k', heq, hgoing', hmoves⟩ <;> rw [heq]
    · refine ⟨hvol.inv hfits hmoves (fun i hi => update_of_ne hi _ _) (hpos u.pos) ?_, hmoves.2⟩
      exact fits_ending (update_self _ _ _) hfile hbegan (hresume _ u rfl rfl) (by rw [update_self]; exact hended)
    · refine ⟨hvol.inv hfits hmoves (fun i hi => update_of_ne hi _ _) (hpos u.pos) ?_, hmoves.2⟩
      exact fits_writing _ (update_self _ _ _) hfile hbegan (hresume _ u rfl rfl) (by rw [update_self]; exact hgoing')
  · cases hstep

/-- A write stores the size and gives the semaphore back, and what is promised of it has been done. -/
theorem Files.Inv.finish (h : fs.Inv ino) (hstep : fs.Step ino (.finish id) fs') :
    fs'.Inv ino ∧ fs.Writes ino fs' (.finish id) := by
  obtain ⟨free, cells, hvol, hfits⟩ := h
  rw [Files.Step, Files.exec] at hstep
  split at hstep
  · rename_i c w hheld
    cases hstep
    have hfit := hfits id
    rw [Files.Fits, hheld] at hfit
    obtain ⟨hfile, l₀, k, hbegan, hended⟩ := hfit
    have huntouched : fs.vol.Untouched (fs.finish id (fs.resume c w)).vol id := hvol.untouched fun i hi =>
      ⟨rfl, update_of_ne hi _ _, fun b _ => ⟨rfl, rfl⟩⟩
    have hmoves : Moves fs.vol (fs.finish id (fs.resume c w)).vol cells id (cells id) :=
      ⟨⟨free, by rw [update_eq_self]; exact hvol.congr rfl rfl⟩, huntouched⟩
    refine ⟨hvol.inv hfits hmoves (fun i hi => update_of_ne hi _ _) (fun _ _ => rfl) ?_, huntouched, ?_⟩
    · rw [Files.Fits, show (fs.finish id (fs.resume c w)).held id = none from update_self _ _ _]
      exact hended.tight hvol hbegan
    · intro c' w' hheld' _
      rw [hheld] at hheld'
      cases hheld'
      exact ⟨hended.stored_bytes hvol hbegan, hended.pos_eq⟩
  · cases hstep

/-- A file that nobody is changing the length of has as many blocks as its size needs. -/
theorem Files.Inv.asserted (h : fs.Inv ino) (hstill : fs.Still id) (hnode : fs.vol.node id = some nd)
    (hkind : nd.kind = .regular) : Asserted (fs.nrBlock id) (fs.vol.size id) := by
  obtain ⟨free, cells, hvol, hfits⟩ := h
  have hfit := hfits id
  have hlength := hvol.length hnode hkind
  have hnr : ∀ nr, (fs.vol.node id).map Node.nrBlock = some nr → nr = nd.nrBlock := by
    intro nr hnr
    rw [hnode] at hnr
    exact (Option.some.inj hnr).symm
  -- a write that has added no block: the size and the number of blocks are those it began with
  have hwriting : ∀ {c : Call} {w : Writing} {l₀ k}, Began c.began l₀ id (c.offset id) c.buf →
      (fs.resume c w).Holds c.began l₀ id (c.offset id) c.buf (cells id) k →
      (c.began.node id).map Node.nrBlock = some w.node.nrBlock → Asserted nd.nrBlock (fs.vol.size id) := by
    intro c w l₀ k hbegan hholds hsame
    obtain ⟨nd₀, hnode₀, hnr₀, -⟩ := hbegan.node
    rw [hnode₀] at hsame
    have hw : w.node = nd := Option.some.inj (hholds.node.symm.trans hnode)
    have hadded : nd₀.nrBlock = nd.nrBlock := (Option.some.inj hsame).trans (by rw [hw])
    have hsize : fs.vol.size id = c.began.size id := hholds.size
    rw [← hadded, hnr₀, hbegan.length, hsize]
    exact asserted_blocksFor _ hbegan.size_lt
  have htight : fs.vol.Tight id → Asserted nd.nrBlock (fs.vol.size id) := fun htight => by
    obtain ⟨hsize, hblocks⟩ := htight nd hnode hkind
    rw [hblocks]
    exact asserted_blocksFor _ hsize
  have hseen : ((fs.vol.node id).map Node.nrBlock).getD 0 = nd.nrBlock := by rw [hnode]; rfl
  rw [Files.Fits] at hfit
  rw [Files.Still] at hstill
  rw [Files.nrBlock]
  cases hheld : fs.held id with
  | none =>
    rw [hheld] at hfit
    dsimp only
    rw [hseen]
    exact htight hfit
  | some held =>
    rw [hheld] at hfit hstill
    cases held with
    | writing c w =>
      obtain ⟨-, l₀, k, hbegan, hgoing⟩ := hfit
      dsimp only
      rw [hseen]
      exact hwriting hbegan hgoing.toHolds hstill
    | ending c w =>
      obtain ⟨-, l₀, k, hbegan, hended⟩ := hfit
      dsimp only
      rw [hseen]
      exact hwriting hbegan hended.toHolds hstill
    | truncating nrBlock =>
      dsimp only
      rw [hnr nrBlock hstill]
      exact htight hfit

theorem Resized.untouched {size : ℕ} (h : Resized v v' cells id nd size) (hvol : Coherent v free cells) :
    v.Untouched v' id := by
  obtain ⟨u, hmoved, rfl | ⟨rdev, rfl⟩⟩ := h
  · exact hvol.untouched fun i hi => ⟨congrFun hmoved.node i, congrFun hmoved.size i,
      fun b hb => ⟨congrFun hmoved.data b, hmoved.next i hi b hb⟩⟩
  · exact hvol.untouched fun i hi => ⟨(update_of_ne hi _ _).trans (congrFun hmoved.node i),
      (update_of_ne hi _ _).trans (congrFun hmoved.size i),
      fun b hb => ⟨congrFun hmoved.data b, hmoved.next i hi b hb⟩⟩

theorem Resized.tight {size : ℕ} (h : Resized v v' cells id nd size) (htight : v.Tight id) (hsize : size < 2 ^ 31) :
    v'.Tight id := by
  obtain ⟨u, hmoved, rfl | ⟨rdev, rfl⟩⟩ := h
  · intro nd' hnode hkind
    rw [hmoved.node] at hnode
    rw [hmoved.size]
    exact htight nd' hnode hkind
  · intro nd' hnode hkind
    have hset : (u.truncated id nd rdev (blocksFor size) size).node id =
      some { nd with rdev := rdev, nrBlock := blocksFor size } := update_self _ _ _
    obtain rfl := Option.some.inj (hset.symm.trans hnode)
    rw [show (u.truncated id nd rdev (blocksFor size) size).size id = size from update_self _ _ _]
    exact ⟨hsize, rfl⟩

/-- The chains of the other inodes are the ones that they had. -/
theorem Coherent.moves {free' : List ℕ} {cells' : ℕ → List ℕ} (h : Coherent v free cells)
    (h' : Coherent v' free' cells') (huntouched : v.Untouched v' id) : Moves v v' cells id (cells' id) := by
  have hcells : update cells id (cells' id) = cells' := by
    funext i
    by_cases hi : i = id
    · subst hi
      exact update_self _ _ _
    · rw [update_of_ne hi]
      obtain ⟨hnode, -, -⟩ := huntouched i hi
      cases hnd : v.node i with
      | none => rw [h.laid.gone i hnd, h'.laid.gone i (hnode.trans hnd)]
      | some nd =>
        have hchain := (h.laid.node i nd hnd).congr fun b hb => (h.untouched_cell huntouched hi hb).2
        exact Chain.unique hchain (h'.laid.node i nd (hnode.trans hnd))
  exact ⟨⟨free', by rw [hcells]; exact h'⟩, huntouched⟩

theorem Files.Inv.truncate {size : ℕ} (h : fs.Inv ino) (hstep : fs.Step ino (.truncate id size a) fs') : fs'.Inv ino := by
  obtain ⟨free, cells, hvol, hfits⟩ := h
  rw [Files.Step, Files.exec] at hstep
  split at hstep
  · rename_i nd hnode hheld
    cases hstep
    split_ifs with hcond
    · obtain ⟨hkind, hsize⟩ := hcond
      have hresized := hvol.truncate_resized hnode hkind a size
      obtain ⟨free', cells', hvol'⟩ := hvol.truncate (a := a) hnode hkind size
      refine hvol.inv hfits (hvol.moves hvol' (hresized.untouched hvol)) (fun i hi => update_of_ne hi _ _)
        (fun _ _ => rfl) ?_
      rw [Files.Fits]
      dsimp only
      rw [update_self]
      exact hresized.tight ((hfits id).tight hheld) hsize
    · exact ⟨free, cells, hvol, hfits⟩
  · cases hstep

theorem Files.Inv.truncated (h : fs.Inv ino) (hstep : fs.Step ino (.truncated id) fs') : fs'.Inv ino := by
  obtain ⟨free, cells, hvol, hfits⟩ := h
  rw [Files.Step, Files.exec] at hstep
  split at hstep
  · rename_i nrBlock hheld
    cases hstep
    refine hvol.inv hfits (show Moves fs.vol _ cells id (cells id) from moves_self hvol) (fun i hi => update_of_ne hi _ _) (fun _ _ => rfl) ?_
    have hfit := hfits id
    rw [Files.Fits, hheld] at hfit
    rw [Files.Fits]
    dsimp only
    rw [update_self]
    exact hfit
  · cases hstep

/-- The assertions change nothing of the files. -/
theorem Files.Inv.assert {q : Request} (h : fs.Inv ino) (hq : q = .assertBlocks id ∨ q = .assertSize id)
    (hstep : fs.Step ino q fs') : fs'.Inv ino := by
  obtain ⟨free, cells, hvol, hfits⟩ := h
  rcases hq with rfl | rfl <;> rw [Files.Step, Files.exec] at hstep <;> split_ifs at hstep <;> cases hstep <;>
    exact ⟨free, cells, hvol, fun i => (hfits i).frame rfl rfl rfl (fun _ _ => rfl) fun _ _ _ => rfl⟩

theorem Files.Inv.step {q : Request} (h : fs.Inv ino) (hgood : fs.Smooth ino q) (hstep : fs.Step ino q fs') :
    fs'.Inv ino ∧ fs.Writes ino fs' q := by
  cases q with
  | lseek f offset origin => exact ⟨h.lseek hgood hstep, trivial⟩
  | write f append buf a => exact h.begin hgood hstep
  | round id a => exact h.round hgood hstep
  | finish id => exact h.finish hstep
  | assertBlocks id => exact ⟨h.assert (.inl rfl) hstep, trivial⟩
  | assertSize id => exact ⟨h.assert (.inr rfl) hstep, trivial⟩
  | truncate id size a => exact ⟨h.truncate hstep, trivial⟩
  | truncated id => exact ⟨h.truncated hstep, trivial⟩

/-- A volume that has just been mounted: there are chains, no maps, and as many blocks as the sizes need. -/
structure Mounted (v : Volume) : Prop where
  laid : ∃ free cells, Laid v.toState free cells
  map : ∀ id, v.map id = none
  tight : ∀ id, v.Tight id

theorem Mounted.inv (h : Mounted fs.vol) (hfree : ∀ id, fs.held id = none) : fs.Inv ino := by
  obtain ⟨free, cells, hlaid⟩ := h.laid
  refine ⟨free, cells, ⟨hlaid, fun id map hid => ?_⟩, fun id => ?_⟩
  · rw [h.map id] at hid
    cases hid
  · rw [Files.Fits, hfree id]
    exact h.tight id

/-- Two open files of the empty file, at which nobody is. -/
def opened : Files where
  vol := created
  pos _ := 0
  held _ := none
  leaving _ := 0
  halfway _ := 0

/-- A file has one full block. While the assertions of a write are still to come, somebody else gives the file its second
block, and the first assertion fails. -/
theorem overlap_not_asserted : ∃ requests fs, Run (Files.Step fun _ => 1) opened requests fs ∧
    ¬ fs.Asserts (.assertBlocks 1) := by
  refine ⟨[.truncate 1 508 sound, .truncated 1, .write 0 false [0x61] sound, .round 1 sound, .finish 1,
    .lseek 1 0 .fromEnd, .write 1 false [0x64] sound, .round 1 sound], _, Run.cons rfl (Run.cons rfl (Run.cons rfl
      (Run.cons rfl (Run.cons rfl (Run.cons rfl (Run.cons rfl (Run.cons rfl (Run.nil _)))))))), fun h => ?_⟩
  exact absurd (h _ rfl rfl) (by decide +kernel)

end Mario.Fs.Mariofs.Maps
