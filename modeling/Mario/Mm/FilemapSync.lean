import Mario.Mm.FilemapContent
import Mario.Mm.Memory

/-!
# Writing a shared mapping back

`filemap_sync` goes through a range of a shared mapping page by page and writes the dirty
pages that are cached with the ordinary `write` of the file. That one extends the file, and
nothing cuts the last page at `i_size`. The result says exactly when a call leaves the size
and the bytes beyond it alone and brings the bytes below it up to date: when what is written
of each page ends at or below `i_size`, and what is not written is there already.
-/

namespace Mario.Filemap

open Mario.Lib Mario.Mm Mario.Paging Function

variable {c : Config} {k : Kernel} {v : Vma} {s s' : State} {inode frame f : ℕ}

/-! ## `ext2_file_write` -/

/-- A pass of the loop: the block is written and the cache is updated. -/
def putChunk (inode start n : ℕ) (bytes : ℕ → ℕ) (s : State) : State :=
  updateCachedRange inode start n bytes
    { s with
      disk := update s.disk inode fun o =>
        if start ≤ o ∧ o < start + n then bytes o else s.disk inode o }

/-- The loop of `ext2_file_write` on the bytes of a frame from `o` on. The first `passes`
passes find no error. The result has `start` and the rest of the count. -/
def writeLoop (c : Config) (inode frame : ℕ) : ℕ → ℕ → ℕ → ℕ → State → State × ℕ × ℕ
  | 0, start, _, left, s => (s, start, left)
  | passes + 1, start, o, left, s =>
      if left = 0 then (s, start, left)
      else
        let n := chunkLength c start left
        writeLoop c inode frame passes ((start + n) % wordSize) (o + n) (left - n)
          (putChunk inode start n (fun off => s.data frame (o + (off - start))) s)

/-- `ext2_file_write` without `O_APPEND`, and the number of bytes that it writes. -/
def ext2FileWrite (c : Config) (inode frame pos o count passes : ℕ) (s : State) : State × ℕ :=
  let r := writeLoop c inode frame passes pos o count s
  ({ r.1 with size := update r.1.size inode (max (r.1.size inode) r.2.1) },
    count - r.2.2)

/-! ## `filemap_sync` -/

/-- There is an entry for the page, and it is up to date. -/
def uptodate (s : State) (inode index : ℕ) : Bool :=
  ((lookup ⟨inode, index⟩ s).bind fun ptr => s.mem.lookup ptr).any fun e =>
    decide (e.state = .uptodate)

def filemapSyncPte (c : Config) (k : Kernel) (f : ℕ) (v : Vma) (addr len passes : ℕ)
    (x : PageTable × State) : PageTable × State :=
  match x.1.lookup (addr / pageSize), inodeOf k f with
  | some pte, some inode =>
      if pteBad k pte || !pte.dirty then x
      else if !uptodate x.2 inode (v.pos addr / pageSize) then x
      else if !((k.files f).fOp.any FileOps.write) then x
      else
        let r := ext2FileWrite c inode pte.frame (v.pos addr) (addr % pageSize) len passes x.2
        (if r.2 = len then x.1.insert (addr / pageSize) { pte with dirty := false } else x.1, r.1)
  | _, _ => x

/-- The part of a range in a page. -/
def pieceStart (addr pg : ℕ) : ℕ := max addr (pg * pageSize)

/-- The length of the part of a range in a page. -/
def pieceLength (addr len pg : ℕ) : ℕ :=
  min (addr + len) (pg * pageSize + pageSize) - pieceStart addr pg

/-- `filemap_sync`; `passes` says for each page how far the file system gets. -/
def filemapSync (c : Config) (k : Kernel) (f : ℕ) (v : Vma) (addr len : ℕ) (passes : ℕ → ℕ)
    (x : PageTable × State) : PageTable × State :=
  if v.vmFlags.shared && v.vmFlags.write then
    (pagesOf addr len).foldl (fun x pg =>
      filemapSyncPte c k f v (pieceStart addr pg) (pieceLength addr len pg) (passes pg) x) x
  else x

/-- The number of bytes in the first passes of the loop. -/
def writtenBytes (c : Config) : ℕ → ℕ → ℕ → ℕ
  | 0, _, _ => 0
  | passes + 1, start, left =>
      if left = 0 then 0
      else
        chunkLength c start left +
          writtenBytes c passes (start + chunkLength c start left) (left - chunkLength c start left)

/-! ## What a write changes -/

theorem chunkLength_pos {start left : ℕ} (h : left ≠ 0) : 0 < chunkLength c start left := by
  have hmod := Nat.mod_lt start c.pos
  unfold chunkLength
  omega

theorem chunkLength_le (c : Config) (start left : ℕ) : chunkLength c start left ≤ left :=
  Nat.min_le_right ..

theorem writtenBytes_le (c : Config) (passes start left : ℕ) : writtenBytes c passes start left ≤ left := by
  induction passes generalizing start left with
  | zero => exact Nat.zero_le left
  | succ passes ih =>
    unfold writtenBytes
    split_ifs
    · exact Nat.zero_le left
    · have hrest := ih (start + chunkLength c start left) (left - chunkLength c start left)
      have hle := chunkLength_le c start left
      omega

theorem pagesOf_single {start n : ℕ} (hn : 0 < n) (hpage : start % pageSize + n ≤ pageSize) :
    pagesOf start n = [start / pageSize] := by
  have hpos : 0 < pageSize := by decide
  have hlast : (start + n - 1) / pageSize = start / pageSize := by
    refine Nat.div_eq_of_lt_le ?_ ?_
    · have := Nat.div_mul_le_self start pageSize
      omega
    · have := Nat.div_add_mod start pageSize
      rw [Nat.mul_comm] at this
      rw [Nat.succ_mul]
      omega
  unfold pagesOf
  rw [if_neg (by omega), hlast, Nat.sub_self]
  rfl

/-- A pass changes the block and the cached frame of the page, and not the frame that it
reads. -/
theorem putChunk_spec {start n o : ℕ} (hn : 0 < n) (hpage : start % pageSize + n ≤ pageSize)
    (hself : cachedFrame s inode (start / pageSize) = some frame → o = start % pageSize) :
    (putChunk inode start n (fun off => s.data frame (o + (off - start))) s).mem = s.mem ∧
    (putChunk inode start n (fun off => s.data frame (o + (off - start))) s).hash = s.hash ∧
    (putChunk inode start n (fun off => s.data frame (o + (off - start))) s).size = s.size ∧
    (∀ j, j ≠ inode →
      (putChunk inode start n (fun off => s.data frame (o + (off - start))) s).disk j = s.disk j) ∧
    (∀ off, (putChunk inode start n (fun off => s.data frame (o + (off - start))) s).disk inode off =
      if start ≤ off ∧ off < start + n then s.data frame (o + (off - start))
      else s.disk inode off) ∧
    ∀ g, g = frame ∨ cachedFrame s inode (start / pageSize) ≠ some g →
      (putChunk inode start n (fun off => s.data frame (o + (off - start))) s).data g = s.data g := by
  unfold putChunk
  generalize hu : ({ s with
    disk := update s.disk inode fun off =>
      if start ≤ off ∧ off < start + n then s.data frame (o + (off - start))
      else s.disk inode off } : State) = u
  have hbytes := updateCachedRange_onlyBytes inode start n (fun off => s.data frame (o + (off - start))) u
  refine ⟨?_, ?_, ?_, fun j hj => ?_, fun off => ?_, fun g hg => ?_⟩
  · rw [hbytes.mem]
    subst hu
    rfl
  · rw [hbytes.hash]
    subst hu
    rfl
  · rw [hbytes.size]
    subst hu
    rfl
  · rw [hbytes.disk]
    subst hu
    exact update_of_ne hj ..
  · rw [hbytes.disk]
    subst hu
    simp only [update_self]
  · have hcached : cachedFrame u inode (start / pageSize) =
        cachedFrame s inode (start / pageSize) := by
      subst hu
      exact cachedFrame_congr rfl rfl inode _
    have hdata : u.data = s.data := by
      subst hu
      rfl
    unfold updateCachedRange
    rw [pagesOf_single hn hpage, List.foldl_cons, List.foldl_nil]
    cases hframe : cachedFrame s inode (start / pageSize) with
    | none =>
      rw [updatePage_none (hcached.trans hframe), hdata]
    | some h =>
      rw [updatePage_some (hcached.trans hframe)]
      by_cases hgh : g = h
      · subst hgh
        -- the frame is written with its own bytes
        obtain rfl : g = frame := hg.resolve_right fun hne => hne hframe
        obtain rfl := hself hframe
        funext o'
        simp only [overwrite, update_self, hdata, decide_eq_true_eq]
        split_ifs with hin
        · have hdiv := Nat.div_add_mod start pageSize
          rw [Nat.mul_comm] at hdiv
          congr 1
          omega
        · rfl
      · rw [overwrite, ← hdata]
        exact update_of_ne hgh ..

/-- What `ext2_file_write` changes, when it writes inside of a page. -/
structure Writes (s s' : State) (inode frame index pos o w : ℕ) : Prop where
  mem : s'.mem = s.mem
  hash : s'.hash = s.hash
  others : ∀ j, j ≠ inode → s'.disk j = s.disk j ∧ s'.size j = s.size j
  disk : ∀ off, s'.disk inode off =
    if pos ≤ off ∧ off < pos + w then s.data frame (o + (off - pos)) else s.disk inode off
  data : ∀ g, g = frame ∨ cachedFrame s inode index ≠ some g → s'.data g = s.data g

theorem writeLoop_done (c : Config) (inode frame passes start o : ℕ) (s : State) :
    writeLoop c inode frame passes start o 0 s = (s, start, 0) ∧ writtenBytes c passes start 0 = 0 := by
  cases passes with
  | zero => exact ⟨rfl, rfl⟩
  | succ passes => exact ⟨if_pos rfl, if_pos rfl⟩

theorem writeLoop_spec (passes : ℕ) {start o left : ℕ} (s : State)
    (hpage : start % pageSize + left ≤ pageSize) (hword : start + left < wordSize)
    (hself : cachedFrame s inode (start / pageSize) = some frame → o = start % pageSize) :
    Writes s (writeLoop c inode frame passes start o left s).1 inode frame (start / pageSize) start
        o (writtenBytes c passes start left) ∧
      (writeLoop c inode frame passes start o left s).1.size = s.size ∧
      (writeLoop c inode frame passes start o left s).2.1 =
        start + writtenBytes c passes start left ∧
      (writeLoop c inode frame passes start o left s).2.2 = left - writtenBytes c passes start left := by
  have hidle : Writes s s inode frame (start / pageSize) start o 0 := by
    refine ⟨rfl, rfl, fun _ _ => ⟨rfl, rfl⟩, fun off => ?_, fun _ _ => rfl⟩
    rw [if_neg (by omega)]
  induction passes generalizing start o left s with
  | zero => exact ⟨hidle, rfl, rfl, rfl⟩
  | succ passes ih =>
    unfold writeLoop writtenBytes
    by_cases hleft : left = 0
    · rw [if_pos hleft, if_pos hleft]
      exact ⟨hidle, rfl, rfl, rfl⟩
    · rw [if_neg hleft, if_neg hleft]
      have hn : 0 < chunkLength c start left := chunkLength_pos hleft
      have hle := chunkLength_le c start left
      dsimp only
      generalize chunkLength c start left = n at hn hle
      rw [Nat.mod_eq_of_lt (show start + n < wordSize by omega)]
      obtain ⟨hmem, hhash, hsize, hothers, hdisk, hdata⟩ :=
        putChunk_spec (n := n) hn (by omega) hself
      generalize putChunk inode start n (fun off => s.data frame (o + (off - start))) s = u at *
      rcases Nat.eq_or_lt_of_le hle with rfl | hlt
      · -- the page is done
        obtain ⟨hloop, hwritten⟩ := writeLoop_done c inode frame passes (start + n) (o + n) u
        rw [Nat.sub_self, hloop, hwritten, Nat.add_zero]
        refine ⟨⟨hmem, hhash, fun j hj => ⟨hothers j hj, by rw [hsize]⟩, hdisk, hdata⟩, hsize, rfl, ?_⟩
        rw [Nat.sub_self]
      · have hdiv := Nat.div_add_mod start pageSize
        rw [Nat.mul_comm] at hdiv
        have hindex : (start + n) / pageSize = start / pageSize := by
          refine Nat.div_eq_of_lt_le (by omega) ?_
          rw [Nat.succ_mul]
          omega
        have hmod : (start + n) % pageSize = start % pageSize + n := by
          have := Nat.div_add_mod (start + n) pageSize
          rw [hindex, Nat.mul_comm] at this
          omega
        have hcached : cachedFrame u inode ((start + n) / pageSize) =
            cachedFrame s inode (start / pageSize) := by
          rw [hindex]
          exact cachedFrame_congr hmem hhash inode _
        have hframe : u.data frame = s.data frame := hdata frame (Or.inl rfl)
        have hrest : Writes u u inode frame ((start + n) / pageSize) (start + n) (o + n) 0 := by
          refine ⟨rfl, rfl, fun _ _ => ⟨rfl, rfl⟩, fun off => ?_, fun _ _ => rfl⟩
          rw [if_neg (by omega)]
        have hpage' : (start + n) % pageSize + (left - n) ≤ pageSize := by omega
        obtain ⟨hwrites, hsame, hstart, hleft'⟩ := ih u hpage' (by omega)
          (fun hf => by rw [hmod, hself (hcached ▸ hf)]) hrest
        generalize writtenBytes c passes (start + n) (left - n) = w at *
        refine ⟨⟨hwrites.mem.trans hmem, hwrites.hash.trans hhash, fun j hj => ?_, fun off => ?_,
          fun g hg => ?_⟩, hsame.trans hsize, by omega, by omega⟩
        · obtain ⟨hd, hz⟩ := hwrites.others j hj
          exact ⟨hd.trans (hothers j hj), by rw [hz, hsize]⟩
        · rw [hwrites.disk off, hdisk off, hframe]
          by_cases hin : start + n ≤ off ∧ off < start + n + w
          · rw [if_pos hin, if_pos (by omega)]
            congr 1
            omega
          · rw [if_neg hin]
            by_cases hfirst : start ≤ off ∧ off < start + n
            · rw [if_pos hfirst, if_pos (by omega)]
            · rw [if_neg hfirst, if_neg (by omega)]
        · rw [hwrites.data g (by rw [hcached]; exact hg), hdata g hg]

theorem ext2FileWrite_spec (c : Config) (inode frame passes : ℕ) {pos o count : ℕ} (s : State)
    (hpage : pos % pageSize + count ≤ pageSize) (hword : pos + count < wordSize)
    (hself : cachedFrame s inode (pos / pageSize) = some frame → o = pos % pageSize) :
    Writes s (ext2FileWrite c inode frame pos o count passes s).1 inode frame (pos / pageSize) pos o
        (writtenBytes c passes pos count) ∧
      (ext2FileWrite c inode frame pos o count passes s).1.size inode =
        max (s.size inode) (pos + writtenBytes c passes pos count) := by
  obtain ⟨hwrites, hsize, hstart, -⟩ := writeLoop_spec (c := c) passes s hpage hword hself
  unfold ext2FileWrite
  generalize writeLoop c inode frame passes pos o count s = r at *
  dsimp only
  rw [hsize, hstart]
  refine ⟨⟨hwrites.mem, hwrites.hash, fun j hj => ?_, hwrites.disk, hwrites.data⟩, ?_⟩
  · exact ⟨(hwrites.others j hj).1, update_of_ne hj ..⟩
  · exact update_self ..

/-! ## Ranges of a mapping -/

theorem piece_spec {addr len pg : ℕ} (hpg : pg ∈ pagesOf addr len) :
    0 < pieceLength addr len pg ∧ pieceStart addr pg / pageSize = pg ∧
      pieceStart addr pg % pageSize + pieceLength addr len pg ≤ pageSize ∧
      addr ≤ pieceStart addr pg ∧ pieceStart addr pg + pieceLength addr len pg ≤ addr + len := by
  unfold pagesOf at hpg
  split_ifs at hpg with hlen
  · cases hpg
  · rw [List.mem_range'_1] at hpg
    unfold pieceLength pieceStart
    simp only [pageSize] at hpg ⊢
    omega

/-- A shared mapping of a file: offsets are those of pages and do not wrap, and a frame that
it maps is cached for no other page. -/
structure SharedMapping (k : Kernel) (f inode : ℕ) (v : Vma) (x : PageTable × State) : Prop where
  file : inodeOf k f = some inode
  start : v.vmStart % pageSize = 0
  offset : v.vmOffset % pageSize = 0
  bound : v.vmOffset + (v.vmEnd - v.vmStart) < wordSize
  backed : ∀ pg pte, x.1.lookup pg = some pte → v.vmStart ≤ pg * pageSize → pg * pageSize < v.vmEnd →
    ∀ index, cachedFrame x.2 inode index = some pte.frame → index = v.pos (pg * pageSize) / pageSize

section

variable {x : PageTable × State} {addr len pg : ℕ}

theorem SharedMapping.pos_spec (h : SharedMapping k f inode v x) (hstart : v.vmStart ≤ addr)
    (hend : addr + len ≤ v.vmEnd) (hpg : pg ∈ pagesOf addr len) :
    v.pos (pieceStart addr pg) = v.vmOffset + (pieceStart addr pg - v.vmStart) ∧
      v.pos (pg * pageSize) / pageSize = v.pos (pieceStart addr pg) / pageSize ∧
      v.pos (pieceStart addr pg) % pageSize = pieceStart addr pg % pageSize ∧
      v.pos (pieceStart addr pg) + pieceLength addr len pg < wordSize ∧
      v.vmStart ≤ pg * pageSize ∧ pg * pageSize < v.vmEnd := by
  obtain ⟨hn, hdiv, hpage, hlow, hhigh⟩ := piece_spec hpg
  have hbound := h.bound
  have haligned := h.start
  have hoffset := h.offset
  have hlo : pg * pageSize ≤ pieceStart addr pg := Nat.le_max_right ..
  have hpgstart : v.vmStart ≤ pg * pageSize := by
    simp only [pageSize] at *
    omega
  have hpos : v.pos (pieceStart addr pg) = v.vmOffset + (pieceStart addr pg - v.vmStart) := by
    unfold Vma.pos
    rw [Nat.mod_eq_of_lt]
    omega
  have hpgpos : v.pos (pg * pageSize) = v.vmOffset + (pg * pageSize - v.vmStart) := by
    unfold Vma.pos
    rw [Nat.mod_eq_of_lt]
    omega
  refine ⟨hpos, ?_, ?_, by omega, hpgstart, by omega⟩
  · rw [hpos, hpgpos]
    simp only [pageSize] at *
    omega
  · rw [hpos]
    simp only [pageSize] at *
    omega

/-- Different pages of the range have different pages of the file. -/
theorem SharedMapping.index_inj {pg' : ℕ} (h : SharedMapping k f inode v x) (hstart : v.vmStart ≤ addr)
    (hend : addr + len ≤ v.vmEnd) (hpg : pg ∈ pagesOf addr len) (hpg' : pg' ∈ pagesOf addr len)
    (hindex : v.pos (pieceStart addr pg) / pageSize = v.pos (pieceStart addr pg') / pageSize) : pg = pg' := by
  obtain ⟨-, hdiv, -⟩ := piece_spec hpg
  obtain ⟨-, hdiv', -⟩ := piece_spec hpg'
  obtain ⟨hpos, -, -, -, hlow, -⟩ := h.pos_spec hstart hend hpg
  obtain ⟨hpos', -, -, -, hlow', -⟩ := h.pos_spec hstart hend hpg'
  have haligned := h.start
  have hoffset := h.offset
  rw [hpos, hpos'] at hindex
  simp only [pageSize] at *
  omega

end

section

variable (c : Config) (k : Kernel) (f inode : ℕ) (v : Vma) (addr len : ℕ) (passes : ℕ → ℕ)

/-- The dirty entry of a page, when it is not one of the bad page. -/
def dirtyPte (k : Kernel) (pt : PageTable) (pg : ℕ) : Option Pte :=
  (pt.lookup pg).filter fun pte => !pteBad k pte && pte.dirty

/-- The file is written for a dirty page. -/
def writesFile (x : PageTable × State) (pg : ℕ) : Bool :=
  v.vmFlags.shared && v.vmFlags.write &&
    uptodate x.2 inode (v.pos (pieceStart addr pg) / pageSize) && (k.files f).fOp.any FileOps.write

/-- How many bytes of the part of the range in a page the file system writes. -/
def pieceWritten (pg : ℕ) : ℕ :=
  writtenBytes c (passes pg) (v.pos (pieceStart addr pg)) (pieceLength addr len pg)

/-- The size and the bytes beyond it are as before, and below it the file has the bytes of
the dirty pages. -/
structure WrittenBack (x x' : PageTable × State) : Prop where
  size : x'.2.size inode = x.2.size inode
  beyond : ∀ off, x.2.size inode ≤ off → x'.2.disk inode off = x.2.disk inode off
  below : ∀ pg ∈ pagesOf addr len, ∀ pte, dirtyPte k x.1 pg = some pte →
    ∀ o < pieceLength addr len pg, v.pos (pieceStart addr pg) + o < x.2.size inode →
      x'.2.disk inode (v.pos (pieceStart addr pg) + o) =
        x'.2.data pte.frame (pieceStart addr pg % pageSize + o)

/-- What is written of a dirty page ends at `i_size` or before, and the bytes below `i_size`
that are not written are in the file already. -/
def Fits (x : PageTable × State) : Prop :=
  ∀ pg ∈ pagesOf addr len, ∀ pte, dirtyPte k x.1 pg = some pte →
    (writesFile k f inode v addr x pg = true →
      v.pos (pieceStart addr pg) + pieceWritten c v addr len passes pg ≤ x.2.size inode) ∧
    ∀ o < pieceLength addr len pg,
      (writesFile k f inode v addr x pg = true → pieceWritten c v addr len passes pg ≤ o) →
      v.pos (pieceStart addr pg) + o < x.2.size inode →
      x.2.disk inode (v.pos (pieceStart addr pg) + o) =
        x.2.data pte.frame (pieceStart addr pg % pageSize + o)

/-- A byte of the file that the pages of a list write. -/
def Wrote (x : PageTable × State) (pg off : ℕ) (pte : Pte) : Prop :=
  dirtyPte k x.1 pg = some pte ∧ writesFile k f inode v addr x pg = true ∧
    v.pos (pieceStart addr pg) ≤ off ∧
    off < v.pos (pieceStart addr pg) + pieceWritten c v addr len passes pg

/-- The state after some of the pages. -/
structure Synced (x : PageTable × State) (done : List ℕ) (y : PageTable × State) : Prop where
  pt : ∀ pg, pg ∉ done → y.1.lookup pg = x.1.lookup pg
  mem : y.2.mem = x.2.mem
  hash : y.2.hash = x.2.hash
  data : ∀ pg ∈ pagesOf addr len, ∀ pte, x.1.lookup pg = some pte →
    y.2.data pte.frame = x.2.data pte.frame
  grows : x.2.size inode ≤ y.2.size inode
  covers : ∀ pg ∈ done, ∀ pte, dirtyPte k x.1 pg = some pte → writesFile k f inode v addr x pg = true →
    v.pos (pieceStart addr pg) + pieceWritten c v addr len passes pg ≤ y.2.size inode
  attained : y.2.size inode = x.2.size inode ∨ ∃ pg ∈ done, ∃ pte,
    dirtyPte k x.1 pg = some pte ∧ writesFile k f inode v addr x pg = true ∧
      y.2.size inode = v.pos (pieceStart addr pg) + pieceWritten c v addr len passes pg
  kept : ∀ off, (∀ pg ∈ done, ∀ pte, ¬ Wrote c k f inode v addr len passes x pg off pte) →
    y.2.disk inode off = x.2.disk inode off
  wrote : ∀ pg ∈ done, ∀ off pte, Wrote c k f inode v addr len passes x pg off pte →
    y.2.disk inode off = x.2.data pte.frame
      (pieceStart addr pg % pageSize + (off - v.pos (pieceStart addr pg)))

end

section

variable {x y : PageTable × State} {addr len pg : ℕ} {passes : ℕ → ℕ} {done : List ℕ}

theorem writesFile_congr (hmem : y.2.mem = x.2.mem) (hhash : y.2.hash = x.2.hash) :
    writesFile k f inode v addr y pg = writesFile k f inode v addr x pg := by
  unfold writesFile uptodate lookup
  rw [hmem, hhash]

/-- A page that is clean, bad, absent or not cached is left alone. -/
theorem filemapSyncPte_idle (hfile : inodeOf k f = some inode) (hpg : pieceStart addr pg / pageSize = pg)
    (hflags : (v.vmFlags.shared && v.vmFlags.write) = true)
    (h : dirtyPte k y.1 pg = none ∨ writesFile k f inode v addr y pg = false) :
    filemapSyncPte c k f v (pieceStart addr pg) (pieceLength addr len pg) (passes pg) y = y := by
  unfold filemapSyncPte
  rw [hpg, hfile]
  cases hpte : y.1.lookup pg with
  | none => rfl
  | some pte =>
    dsimp only
    by_cases hclean : (pteBad k pte || !pte.dirty) = true
    · rw [if_pos hclean]
    by_cases hcached : (!uptodate y.2 inode (v.pos (pieceStart addr pg) / pageSize)) = true
    · rw [if_neg hclean, if_pos hcached]
    by_cases hop : (!((k.files f).fOp.any FileOps.write)) = true
    · rw [if_neg hclean, if_neg hcached, if_pos hop]
    exfalso
    rcases h with h | h
    · rw [dirtyPte, hpte] at h
      simp only [Option.filter_some, Bool.and_eq_true, Bool.not_eq_true', ite_eq_right_iff,
        reduceCtorEq, imp_false, not_and] at h
      simp only [Bool.or_eq_true, Bool.not_eq_true', not_or, Bool.not_eq_true, Bool.not_eq_false] at hclean
      exact h hclean.1 hclean.2
    · unfold writesFile at h
      simp only [Bool.not_eq_true', Bool.not_eq_false] at hcached hop
      rw [hflags, hcached, hop] at h
      cases h

theorem filemapSyncPte_writes (c : Config) (len : ℕ) (passes : ℕ → ℕ) {pte : Pte}
    (hfile : inodeOf k f = some inode) (hpg : pieceStart addr pg / pageSize = pg)
    (hpte : dirtyPte k y.1 pg = some pte) (hwrites : writesFile k f inode v addr y pg = true) :
    (∀ q, q ≠ pg → (filemapSyncPte c k f v (pieceStart addr pg) (pieceLength addr len pg) (passes pg)
        y).1.lookup q = y.1.lookup q) ∧
      (filemapSyncPte c k f v (pieceStart addr pg) (pieceLength addr len pg) (passes pg) y).2 =
        (ext2FileWrite c inode pte.frame (v.pos (pieceStart addr pg)) (pieceStart addr pg % pageSize)
          (pieceLength addr len pg) (passes pg) y.2).1 := by
  obtain ⟨hlook, hdirty⟩ := Option.filter_eq_some_iff.mp hpte
  simp only [Bool.and_eq_true, Bool.not_eq_true'] at hdirty
  unfold writesFile at hwrites
  simp only [Bool.and_eq_true] at hwrites
  unfold filemapSyncPte
  rw [hpg, hfile, hlook]
  dsimp only
  rw [if_neg (by simp [hdirty.1, hdirty.2]), if_neg (by simp [hwrites.1.2]), if_neg (by simp [hwrites.2])]
  refine ⟨fun q hq => ?_, rfl⟩
  split_ifs
  · exact AList.lookup_insert_ne hq
  · rfl

/-- A byte that is written for a page lies in the page of the file. -/
theorem piece_index {off : ℕ} (h : SharedMapping k f inode v x) (hstart : v.vmStart ≤ addr)
    (hend : addr + len ≤ v.vmEnd) (hpg : pg ∈ pagesOf addr len) (hlow : v.pos (pieceStart addr pg) ≤ off)
    (hhigh : off < v.pos (pieceStart addr pg) + pieceLength addr len pg) :
    off / pageSize = v.pos (pieceStart addr pg) / pageSize := by
  obtain ⟨-, -, hpage, -⟩ := piece_spec hpg
  obtain ⟨-, -, hmod, -⟩ := h.pos_spec hstart hend hpg
  rw [← hmod] at hpage
  generalize v.pos (pieceStart addr pg) = pos at *
  simp only [pageSize] at *
  omega

theorem pieceWritten_le (c : Config) (v : Vma) (addr len : ℕ) (passes : ℕ → ℕ) (pg : ℕ) :
    pieceWritten c v addr len passes pg ≤ pieceLength addr len pg :=
  writtenBytes_le ..

theorem Synced.step (h : SharedMapping k f inode v x) (hstart : v.vmStart ≤ addr)
    (hend : addr + len ≤ v.vmEnd) (hflags : (v.vmFlags.shared && v.vmFlags.write) = true)
    (hdone : ∀ q ∈ done, q ∈ pagesOf addr len) (hpg : pg ∈ pagesOf addr len) (hnew : pg ∉ done)
    (hS : Synced c k f inode v addr len passes x done y) : Synced c k f inode v addr len passes x (pg :: done)
      (filemapSyncPte c k f v (pieceStart addr pg) (pieceLength addr len pg) (passes pg) y) := by
  obtain ⟨hn, hdiv, hpage, -⟩ := piece_spec hpg
  obtain ⟨-, hpgindex, hmod, hword, -⟩ := h.pos_spec hstart hend hpg
  have hpt : dirtyPte k y.1 pg = dirtyPte k x.1 pg := by rw [dirtyPte, dirtyPte, hS.pt pg hnew]
  have hwf : writesFile k f inode v addr y pg = writesFile k f inode v addr x pg :=
    writesFile_congr hS.mem hS.hash
  by_cases hidle : dirtyPte k y.1 pg = none ∨ writesFile k f inode v addr y pg = false
  · -- nothing is written for the page
    rw [filemapSyncPte_idle h.file hdiv hflags hidle]
    rw [hpt, hwf] at hidle
    have hnot : ∀ pte, dirtyPte k x.1 pg = some pte → writesFile k f inode v addr x pg ≠ true := by
      intro pte hpte hw
      rcases hidle with hnone | hfalse
      · rw [hpte] at hnone
        cases hnone
      · rw [hw] at hfalse
        cases hfalse
    refine ⟨fun q hq => hS.pt q fun hqd => hq (List.mem_cons_of_mem pg hqd), hS.mem, hS.hash, hS.data,
      hS.grows, fun q hq pte hpte hw => ?_, ?_, fun off hoff => ?_, fun q hq off pte hw => ?_⟩
    · rcases List.mem_cons.mp hq with rfl | hq
      · exact absurd hw (hnot pte hpte)
      · exact hS.covers q hq pte hpte hw
    · rcases hS.attained with hsame | ⟨q, hq, hrest⟩
      · exact Or.inl hsame
      · exact Or.inr ⟨q, List.mem_cons_of_mem pg hq, hrest⟩
    · exact hS.kept off fun q hq => hoff q (List.mem_cons_of_mem pg hq)
    · rcases List.mem_cons.mp hq with rfl | hq
      · exact absurd hw.2.1 (hnot pte hw.1)
      · exact hS.wrote q hq off pte hw
  · rw [not_or, Bool.not_eq_false] at hidle
    obtain ⟨hsome, hw⟩ := hidle
    obtain ⟨pte, hpte⟩ := Option.ne_none_iff_exists'.mp hsome
    obtain ⟨hlook, hstate⟩ := filemapSyncPte_writes c len passes h.file hdiv hpte hw
    rw [hpt] at hpte
    rw [hwf] at hw
    obtain ⟨hwrites, hsize⟩ := ext2FileWrite_spec c inode pte.frame (passes pg) y.2
      (by rw [hmod]; exact hpage) hword fun _ => hmod.symm
    rw [← hstate] at hwrites hsize
    change Writes y.2 _ inode pte.frame _ _ _ (pieceWritten c v addr len passes pg) at hwrites
    change _ = max _ (v.pos (pieceStart addr pg) + pieceWritten c v addr len passes pg) at hsize
    generalize filemapSyncPte c k f v (pieceStart addr pg) (pieceLength addr len pg) (passes pg) y = z at *
    have hframe : x.1.lookup pg = some pte := (Option.filter_eq_some_iff.mp hpte).1
    have hcached : ∀ i, cachedFrame y.2 inode i = cachedFrame x.2 inode i :=
      fun i => cachedFrame_congr hS.mem hS.hash inode i
    have hle := pieceWritten_le c v addr len passes pg
    refine ⟨fun q hq => ?_, hwrites.mem.trans hS.mem, hwrites.hash.trans hS.hash,
      fun q hq pte' hpte' => ?_, ?_, fun q hq pte' hpte' hw' => ?_, ?_, fun off hoff => ?_,
      fun q hq off pte' hwrote => ?_⟩
    · rw [List.mem_cons, not_or] at hq
      rw [hlook q hq.1, hS.pt q hq.2]
    · rw [← hS.data q hq pte' hpte']
      refine hwrites.data pte'.frame ?_
      by_contra hnot
      rw [not_or, not_not, hcached] at hnot
      -- the frame would be cached for the page that is written
      obtain ⟨-, hqindex, -, -, hqlow, hqhigh⟩ := h.pos_spec hstart hend hq
      have hindex := h.backed q pte' hpte' hqlow hqhigh _ hnot.2
      rw [hqindex] at hindex
      obtain rfl := h.index_inj hstart hend hpg hq hindex
      rw [hframe] at hpte'
      exact hnot.1 (congrArg Pte.frame (Option.some.inj hpte')).symm
    · have := hS.grows
      omega
    · rcases List.mem_cons.mp hq with rfl | hq
      · omega
      · have := hS.covers q hq pte' hpte' hw'
        omega
    · rcases Nat.le_total (v.pos (pieceStart addr pg) + pieceWritten c v addr len passes pg)
        (y.2.size inode) with hmax | hmax
      · rw [Nat.max_eq_left hmax] at hsize
        rw [hsize]
        rcases hS.attained with hsame | ⟨q, hq, hrest⟩
        · exact Or.inl hsame
        · exact Or.inr ⟨q, List.mem_cons_of_mem pg hq, hrest⟩
      · rw [Nat.max_eq_right hmax] at hsize
        exact Or.inr ⟨pg, List.mem_cons_self, pte, hpte, hw, hsize⟩
    · have hself := hoff pg List.mem_cons_self pte
      rw [hwrites.disk off, if_neg fun hin => hself ⟨hpte, hw, hin.1, hin.2⟩]
      exact hS.kept off fun q hq => hoff q (List.mem_cons_of_mem pg hq)
    · rcases List.mem_cons.mp hq with rfl | hq
      · obtain rfl := Option.some.inj (hpte.symm.trans hwrote.1)
        rw [hwrites.disk off, if_pos hwrote.2.2, hS.data q hpg pte hframe]
      · have hqpg := hdone q hq
        have hqle := pieceWritten_le c v addr len passes q
        rw [hwrites.disk off, if_neg, hS.wrote q hq off pte' hwrote]
        rintro ⟨hlow, hhigh⟩
        obtain ⟨-, -, hqlow, hqhigh⟩ := hwrote
        have hindex := piece_index h hstart hend hpg hlow (by omega)
        have hqindex := piece_index h hstart hend hqpg hqlow (by omega)
        obtain rfl := h.index_inj hstart hend hpg hqpg (hindex.symm.trans hqindex)
        exact hnew hq

theorem Synced.refl (x : PageTable × State) : Synced c k f inode v addr len passes x [] x where
  pt _ _ := rfl
  mem := rfl
  hash := rfl
  data _ _ _ _ := rfl
  grows := le_rfl
  covers _ hq := absurd hq List.not_mem_nil
  attained := Or.inl rfl
  kept _ _ := rfl
  wrote _ hq := absurd hq List.not_mem_nil

theorem Synced.foldl (h : SharedMapping k f inode v x) (hstart : v.vmStart ≤ addr)
    (hend : addr + len ≤ v.vmEnd) (hflags : (v.vmFlags.shared && v.vmFlags.write) = true)
    (l : List ℕ) (hl : l.Nodup) (hmem : ∀ q ∈ l, q ∈ pagesOf addr len)
    (hdone : ∀ q ∈ done, q ∈ pagesOf addr len) (hnew : ∀ q ∈ l, q ∉ done)
    (hS : Synced c k f inode v addr len passes x done y) : Synced c k f inode v addr len passes x (l.reverse ++ done)
      (l.foldl (fun y pg =>
        filemapSyncPte c k f v (pieceStart addr pg) (pieceLength addr len pg) (passes pg) y) y) := by
  induction l generalizing done y with
  | nil => exact hS
  | cons pg l ih =>
    rw [List.nodup_cons] at hl
    have hpg := hmem pg List.mem_cons_self
    have hstep := hS.step h hstart hend hflags hdone hpg (hnew pg List.mem_cons_self)
    rw [List.foldl_cons, List.reverse_cons, List.append_assoc]
    apply ih hl.2 (fun q hq => hmem q (List.mem_cons_of_mem pg hq)) _ _ hstep
    · intro q hq
      rcases List.mem_cons.mp hq with rfl | hq
      · exact hpg
      · exact hdone q hq
    · intro q hq hqdone
      rcases List.mem_cons.mp hqdone with rfl | hqdone
      · exact hl.1 hq
      · exact hnew q (List.mem_cons_of_mem pg hq) hqdone

theorem pagesOf_nodup (off count : ℕ) : (pagesOf off count).Nodup := by
  unfold pagesOf
  split_ifs
  · exact List.nodup_nil
  · exact List.nodup_range'

theorem filemapSync_synced (c : Config) (passes : ℕ → ℕ) (h : SharedMapping k f inode v x)
    (hstart : v.vmStart ≤ addr) (hend : addr + len ≤ v.vmEnd) :
    Synced c k f inode v addr len passes x (pagesOf addr len).reverse (filemapSync c k f v addr len passes x) := by
  unfold filemapSync
  by_cases hflags : (v.vmFlags.shared && v.vmFlags.write) = true
  · rw [if_pos hflags]
    rw [← List.append_nil (pagesOf addr len).reverse]
    apply (Synced.refl x).foldl h hstart hend hflags (pagesOf addr len) (pagesOf_nodup addr len)
    · exact fun _ hq => hq
    · exact fun q hq => absurd hq List.not_mem_nil
    · exact fun _ _ => List.not_mem_nil
  · rw [if_neg hflags]
    have hfalse : ∀ pg, writesFile k f inode v addr x pg = false := by
      intro pg
      unfold writesFile
      rw [Bool.eq_false_of_not_eq_true hflags, Bool.false_and, Bool.false_and]
    constructor
    · exact fun _ _ => rfl
    · rfl
    · rfl
    · exact fun _ _ _ _ => rfl
    · exact le_rfl
    · intro pg _ pte _ hw
      rw [hfalse] at hw
      cases hw
    · exact Or.inl rfl
    · exact fun _ _ => rfl
    · intro pg _ off pte hwrote
      have hw := hwrote.2.1
      rw [hfalse] at hw
      cases hw

/-- A byte in the part of one page is written for this page or for none. -/
theorem Wrote.page {q off : ℕ} {pte : Pte} (h : SharedMapping k f inode v x)
    (hstart : v.vmStart ≤ addr) (hend : addr + len ≤ v.vmEnd) (hpg : pg ∈ pagesOf addr len)
    (hlow : v.pos (pieceStart addr pg) ≤ off) (hhigh : off < v.pos (pieceStart addr pg) + pieceLength addr len pg)
    (hq : q ∈ pagesOf addr len) (hwrote : Wrote c k f inode v addr len passes x q off pte) : q = pg := by
  obtain ⟨-, -, hqlow, hqhigh⟩ := hwrote
  have hle := pieceWritten_le c v addr len passes q
  have hindex := piece_index h hstart hend hpg hlow hhigh
  have hqindex := piece_index h hstart hend hq hqlow (by omega)
  exact h.index_inj hstart hend hq hpg (hqindex.symm.trans hindex)

/-- A call leaves the size and the bytes beyond it alone and brings the bytes below it up to
date exactly if what it writes ends at `i_size`, and what it skips is in the file already. -/
theorem filemapSync_writtenBack_iff (h : SharedMapping k f inode v x)
    (hstart : v.vmStart ≤ addr) (hend : addr + len ≤ v.vmEnd) :
    WrittenBack k inode v addr len x (filemapSync c k f v addr len passes x) ↔
      Fits c k f inode v addr len passes x := by
  have hS := filemapSync_synced c passes h hstart hend
  generalize filemapSync c k f v addr len passes x = z at *
  have hmem : ∀ q, q ∈ (pagesOf addr len).reverse ↔ q ∈ pagesOf addr len := fun _ =>
    List.mem_reverse
  constructor
  · intro hback pg hpg pte hpte
    constructor
    · intro hw
      rw [← hback.size]
      exact hS.covers pg ((hmem pg).mpr hpg) pte hpte hw
    · intro o ho hskip hbelow
      rw [← hS.data pg hpg pte (Option.filter_eq_some_iff.mp hpte).1,
        ← hback.below pg hpg pte hpte o ho hbelow]
      apply (hS.kept _ _).symm
      intro q hq pte' hwrote
      obtain rfl := hwrote.page h hstart hend hpg (Nat.le_add_right ..) (by omega) ((hmem q).mp hq)
      have hwritten := hskip hwrote.2.1
      have hhigh := hwrote.2.2.2
      omega
  · intro hfits
    constructor
    · rcases hS.attained with hsame | ⟨q, hq, pte, hpte, hw, hsize⟩
      · exact hsame
      · have hle := (hfits q ((hmem q).mp hq) pte hpte).1 hw
        have hgrows := hS.grows
        omega
    · intro off hoff
      apply hS.kept off
      intro q hq pte hwrote
      have hle := (hfits q ((hmem q).mp hq) pte hwrote.1).1 hwrote.2.1
      have hhigh := hwrote.2.2.2
      omega
    · intro pg hpg pte hpte o ho hbelow
      rw [hS.data pg hpg pte (Option.filter_eq_some_iff.mp hpte).1]
      by_cases hwrote : Wrote c k f inode v addr len passes x pg
          (v.pos (pieceStart addr pg) + o) pte
      · rw [hS.wrote pg ((hmem pg).mpr hpg) _ pte hwrote, Nat.add_sub_cancel_left]
      · rw [hS.kept]
        · apply (hfits pg hpg pte hpte).2 o ho _ hbelow
          intro hw
          by_contra hlt
          exact hwrote ⟨hpte, hw, Nat.le_add_right .., by omega⟩
        · intro q hq pte' hq'
          obtain rfl := hq'.page h hstart hend hpg (Nat.le_add_right ..) (by omega) ((hmem q).mp hq)
          obtain rfl := Option.some.inj (hpte.symm.trans hq'.1)
          exact hwrote hq'

end

/-! ## The last page of a file -/

/-- A file with the inode 1. -/
def syncKernel : Kernel :=
  { files := fun _ => ⟨3, some ⟨1, some false, true⟩, some ⟨true, true, true⟩⟩
    bad := 5
    bad_lt := by decide
    rlimStack := 0 }

/-- A shared mapping of the first page of the file. -/
def syncArea : Vma :=
  { ptr := 1, vmStart := 0x1000, vmEnd := 0x2000, vmFlags := ⟨true, true, false, true, false⟩
    vmPageProt := ⟨true, true⟩, vmFile := some 7, vmInode := some 1, vmOffset := 0
    vmOps := none, area := 1 }

/-- The page is cached and dirty, and the file has a given size. -/
def syncState (size : ℕ) : PageTable × State :=
  (AList.singleton 1 ⟨9, true, true, true⟩,
    { startState with
      mem := AList.singleton 1 ⟨1, 0, some 9, .uptodate, 0⟩
      lru := [1]
      hash := fun h => if h = hashIndex 1 0 then [1] else []
      count := 1
      data := fun _ o => o % 256
      size := fun _ => size })

theorem syncState_mapping (size : ℕ) : SharedMapping syncKernel 7 1 syncArea (syncState size) where
  file := rfl
  start := by decide
  offset := by decide
  bound := by decide
  backed pg pte hpte hlow hhigh index hindex := by
    obtain rfl : pg = 1 := by
      simp only [syncArea, pageSize] at hlow hhigh
      omega
    obtain ⟨e, he, -⟩ := Option.bind_eq_some_iff.mp hindex
    obtain ⟨ptr, hptr, -⟩ := Option.bind_eq_some_iff.mp he
    have hfound := List.find?_some hptr
    have hin : ptr ∈ (if hashIndex 1 index = hashIndex 1 0 then [1] else []) :=
      List.mem_of_find?_eq_some hptr
    split_ifs at hin
    · obtain rfl := List.mem_singleton.mp hin
      exact (of_decide_eq_true hfound).2.symm
    · cases hin

theorem syncState_fits : Fits exampleConfig syncKernel 7 1 syncArea 0x1000 0x1000 (fun _ => 4) (syncState 4096) := by
  intro pg hpg pte hpte
  obtain rfl : pg = 1 := List.mem_singleton.mp hpg
  constructor
  · exact fun _ => by decide +kernel
  · intro o ho hskip _
    have hwritten := hskip (by decide +kernel)
    have hall : pieceWritten exampleConfig syncArea 0x1000 0x1000 (fun _ => 4) 1 =
        pieceLength 0x1000 0x1000 1 := by decide +kernel
    omega

theorem filemapSync_writtenBack_iff_whole :
    SharedMapping syncKernel 7 1 syncArea (syncState 4096) ∧
      WrittenBack syncKernel 1 syncArea 0x1000 0x1000 (syncState 4096)
        (filemapSync exampleConfig syncKernel 7 syncArea 0x1000 0x1000 (fun _ => 4)
          (syncState 4096)) :=
  ⟨syncState_mapping 4096,
    (filemapSync_writtenBack_iff (syncState_mapping 4096) (by decide) (by decide)).mpr
      syncState_fits⟩

/-- The last page of a file of ten bytes is written as a whole. -/
theorem filemapSync_extends :
    ¬ ∀ (c : Config) (k : Kernel) (f inode : ℕ) (v : Vma) (addr len : ℕ) (passes : ℕ → ℕ)
        (x : PageTable × State), SharedMapping k f inode v x → v.vmStart ≤ addr →
      addr + len ≤ v.vmEnd →
      WrittenBack k inode v addr len x (filemapSync c k f v addr len passes x) := by
  intro h
  have hback := h exampleConfig syncKernel 7 1 syncArea 0x1000 0x1000 (fun _ => 4) (syncState 10)
    (syncState_mapping 10) (by decide) (by decide)
  exact absurd hback.size (by decide +kernel)

end Mario.Filemap
