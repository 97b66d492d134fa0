/-
# Random writes with and without zero fill

The host may take any part of what is written to it. The operations are given here with the number of
bytes each `fwrite` takes (`write_some`); where they are all taken they are `file_write_rand` and
`file_write_rand_zf` (`write_rand_some_all`, `write_rand_zf_some_all`).

`F_WRITERAND` looks at the number for the record, `F_WRITEZF` at none. The zeros are a matter of no
consequence, for the host puts them itself in the gap before a record that is written behind the end
of its file (`overwrite_fill`). The two functions agree exactly where they do not find the file, or
the record is taken whole: `zero_fill_agrees_iff`.
-/
import Cpm8000.Host.WholeFile

namespace Cpm8000.Host

open Cpm8000.Sys

/-! ## 1. Writes that are taken in part -/

/-- `fwrite` of `buf`, of which the host takes `n` bytes at most. -/
def HostFs.fwrite_some (h : HostFs) (fp : Stream) (buf : List Byte) (n : ℕ) : HostFs × Stream × ℕ :=
  match buf.take n with
  | [] => (h, fp, 0)
  | b :: l => h.fwrite fp (b :: l)

namespace CpmFileSystem

variable {fs : CpmFileSystem} {fcb_addr : BitVec 16}

/-- `write`, of which the host takes `n` bytes at most. -/
def write_some (fs : CpmFileSystem) (slot : Fin 16) (buf : List Byte) (n : ℕ) : CpmFileSystem × ℕ :=
  let s := fs.host.fwrite_some (fs.m_files slot).fp buf n
  ({ fs with
    m_files := Function.update fs.m_files slot { fs.m_files slot with fp := s.2.1 }
    host := s.1 }, s.2.2)

/-- `write_record`, of whose record the host takes `n` bytes at most. -/
def write_record_some (fs : CpmFileSystem) (fcb_addr : BitVec 16) (n : ℕ) (slot : Fin 16)
    (offset : ℕ) : CpmFileSystem × ℕ :=
  let fs := fs.seek slot offset
  let buf := dma_read_block fs.m_dma_addr 0 128 fs.m_mem
  match fs.write_some slot buf n with
  | (fs, taken) =>
    if taken ≠ 128 then (fs, 1) else (fs.update_fcb_after_read fcb_addr (offset + 128), 0)

/-- `file_write_rand`, with the bytes of the record the host takes. -/
def write_rand_some (fs : CpmFileSystem) (fcb_addr : BitVec 16) (n : ℕ) : CpmFileSystem × ℕ :=
  fs.with_open fcb_addr fun s slot =>
    s.write_record_some fcb_addr n slot (s.compute_random_offset fcb_addr)

/-- `zero_fill`; of the zeros written from `cur_size` on the host takes `fill cur_size`. -/
def zero_fill_some (slot : Fin 16) (offset : ℕ) (fill : ℕ → ℕ) (fs : CpmFileSystem)
    (cur_size : ℕ) : CpmFileSystem :=
  if cur_size < offset then
    let chunk := if offset - cur_size > 128 then 128 else offset - cur_size
    zero_fill_some slot offset fill (fs.write_some slot (List.replicate chunk 0) (fill cur_size)).1
      (cur_size + chunk)
  else fs
termination_by offset - cur_size
decreasing_by
  split_ifs <;> omega

/-- `fseek(fp, 0, SEEK_END)`. -/
def seek_end (fs : CpmFileSystem) (slot : Fin 16) : CpmFileSystem :=
  let s := fs.host.fseek_end (fs.m_files slot).fp
  { fs with
    m_files := Function.update fs.m_files slot { fs.m_files slot with fp := s.2 }
    host := s.1 }

/-- What `file_write_rand_zf` does before it writes the record. -/
def fill_gap (fs : CpmFileSystem) (fill : ℕ → ℕ) (slot : Fin 16) (offset : ℕ) : CpmFileSystem :=
  let cur_size := (fs.host.fseek_end (fs.m_files slot).fp).2.pos
  let fs := fs.seek_end slot
  if offset > cur_size then zero_fill_some slot offset fill (fs.seek slot cur_size) cur_size else fs

/-- The gap filled and the record written, whatever is taken of it. -/
def write_record_zf_some (fs : CpmFileSystem) (fcb_addr : BitVec 16) (fill : ℕ → ℕ) (n : ℕ)
    (slot : Fin 16) (offset : ℕ) : CpmFileSystem × ℕ :=
  let fs := (fs.fill_gap fill slot offset).seek slot offset
  let buf := dma_read_block fs.m_dma_addr 0 128 fs.m_mem
  let fs := (fs.write_some slot buf n).1
  (fs.update_fcb_after_read fcb_addr (offset + 128), 0)

/-- `file_write_rand_zf`, with the bytes of the zeros and of the record the host takes. -/
def write_rand_zf_some (fs : CpmFileSystem) (fcb_addr : BitVec 16) (fill : ℕ → ℕ) (n : ℕ) :
    CpmFileSystem × ℕ :=
  fs.with_open fcb_addr fun s slot =>
    s.write_record_zf_some fcb_addr fill n slot (s.compute_random_offset fcb_addr)

/-! ## 2. Writes that are taken whole -/

theorem write_some_all {slot : Fin 16} {buf : List Byte} {n : ℕ} (hbuf : buf ≠ [])
    (hn : buf.length ≤ n) : fs.write_some slot buf n = fs.write slot buf := by
  unfold write_some write HostFs.fwrite_some
  rw [List.take_of_length_le hn]
  cases buf with
  | nil => exact absurd rfl hbuf
  | cons b l => rfl

theorem dma_read_block_ne_nil (dma : BitVec 32) (m : HostedMemory) :
    dma_read_block dma 0 128 m ≠ [] := by
  intro hnil
  have hlen := length_dma_read_block dma 0 128 m
  rw [hnil] at hlen
  cases hlen

/-- `F_WRITERAND`, where the host takes the record. -/
theorem write_rand_some_all {n : ℕ} (hn : 128 ≤ n) :
    fs.write_rand_some fcb_addr n = fs.file_write_rand fcb_addr := by
  have hrecord : ∀ (s : CpmFileSystem) (slot : Fin 16) (offset : ℕ),
      s.write_record_some fcb_addr n slot offset = s.write_record fcb_addr slot offset := by
    intro s slot offset
    unfold write_record_some write_record
    dsimp only
    rw [write_some_all (dma_read_block_ne_nil _ _) (by rw [length_dma_read_block]; exact hn)]
  rw [file_write_rand_eq, write_rand_some]
  simp only [hrecord]

theorem zero_fill_some_all {slot : Fin 16} {offset : ℕ} {fill : ℕ → ℕ} (hfill : ∀ c, 128 ≤ fill c)
    (fs : CpmFileSystem) (cur_size : ℕ) :
    zero_fill_some slot offset fill fs cur_size = zero_fill slot offset fs cur_size := by
  fun_induction zero_fill slot offset fs cur_size with
  | case1 fs cur_size hlt chunk ih =>
    have hchunk : 0 < chunk ∧ chunk ≤ 128 := by
      unfold chunk
      split_ifs <;> omega
    have hne : List.replicate chunk (0 : Byte) ≠ [] := by
      rw [Ne, List.replicate_eq_nil_iff]
      omega
    have hwrite : fs.write_some slot (List.replicate chunk 0) (fill cur_size) =
        fs.write slot (List.replicate chunk 0) := by
      refine write_some_all hne ?_
      rw [List.length_replicate]
      exact hchunk.2.trans (hfill cur_size)
    unfold zero_fill_some
    rw [if_pos hlt]
    refine Eq.trans ?_ ih
    exact congrArg (fun s => zero_fill_some slot offset fill s.1 (cur_size + chunk)) hwrite
  | case2 fs cur_size hge =>
    unfold zero_fill_some
    rw [if_neg hge]

/-- `F_WRITEZF`, where the host takes all. -/
theorem write_rand_zf_some_all {fill : ℕ → ℕ} {n : ℕ} (hfill : ∀ c, 128 ≤ fill c) (hn : 128 ≤ n) :
    fs.write_rand_zf_some fcb_addr fill n = fs.file_write_rand_zf fcb_addr := by
  have hgap : ∀ (s : CpmFileSystem) (slot : Fin 16) (offset : ℕ), s.fill_gap fill slot offset =
      if offset > (s.host.fseek_end (s.m_files slot).fp).2.pos then
        zero_fill slot offset ((s.seek_end slot).seek slot (s.host.fseek_end (s.m_files slot).fp).2.pos)
          (s.host.fseek_end (s.m_files slot).fp).2.pos
      else s.seek_end slot := by
    intro s slot offset
    unfold fill_gap
    dsimp only
    rw [zero_fill_some_all hfill]
  unfold write_rand_zf_some write_record_zf_some with_open file_write_rand_zf
  rcases fs.ensure_open fcb_addr with ⟨s, _ | slot⟩
  · rfl
  · dsimp only
    rw [write_some_all (dma_read_block_ne_nil _ _) (by rw [length_dma_read_block]; exact hn), hgap]
    rfl

end CpmFileSystem

/-! ## 3. What is written into a file -/

theorem take_overwrite (l : List Byte) (p : ℕ) (a : List Byte) :
    (overwrite l p a).take (p + a.length) = (l ++ List.replicate (p - l.length) 0).take p ++ a := by
  have hlen : ((l ++ List.replicate (p - l.length) (0 : Byte)).take p ++ a).length = p + a.length := by
    rw [List.length_append, List.length_take, List.length_append, List.length_replicate]
    omega
  rw [overwrite, ← hlen]
  exact List.take_left

theorem drop_overwrite (l : List Byte) (p : ℕ) (a : List Byte) (k : ℕ) :
    (overwrite l p a).drop (p + a.length + k) = l.drop (p + a.length + k) := by
  have hlen : ((l ++ List.replicate (p - l.length) (0 : Byte)).take p ++ a).length = p + a.length := by
    rw [List.length_append, List.length_take, List.length_append, List.length_replicate]
    omega
  rw [overwrite, List.drop_append, List.drop_eq_nil_of_le (by omega), List.nil_append, hlen,
    Nat.add_sub_cancel_left, List.drop_drop]

/-- **One write after the other** is one write of both. -/
theorem overwrite_append (l : List Byte) (p : ℕ) (a b : List Byte) :
    overwrite l p (a ++ b) = overwrite (overwrite l p a) (p + a.length) b := by
  have hlen := length_overwrite l p a
  have hgap : p + a.length - (overwrite l p a).length = 0 := by omega
  conv_rhs => rw [overwrite, hgap, List.replicate_zero, List.append_nil, take_overwrite, drop_overwrite]
  rw [overwrite, List.length_append, Nat.add_assoc]
  simp only [List.append_assoc]

/-- Zeros written at the end of a file. -/
theorem overwrite_end (l : List Byte) (m c : ℕ) :
    overwrite (l ++ List.replicate m 0) (l.length + m) (List.replicate c 0) =
      l ++ List.replicate (m + c) 0 := by
  have hlen : (l ++ List.replicate m (0 : Byte)).length = l.length + m := by
    rw [List.length_append, List.length_replicate]
  rw [overwrite, hlen, Nat.sub_self, List.replicate_zero, List.append_nil, ← hlen, List.take_length,
    List.drop_eq_nil_of_le (Nat.le_add_right _ _), List.append_nil, List.append_assoc,
    List.replicate_append_replicate]

/-- **Zeros before a record make no difference**, as far as they do not reach behind its beginning. -/
theorem overwrite_fill (l : List Byte) {m p : ℕ} (h : l.length + m ≤ p ∨ m = 0) (buf : List Byte) :
    overwrite (l ++ List.replicate m 0) p buf = overwrite l p buf := by
  rcases h with h | rfl
  · have hlen : (l ++ List.replicate m (0 : Byte)).length = l.length + m := by
      rw [List.length_append, List.length_replicate]
    have hsum : m + (p - (l.length + m)) = p - l.length := by omega
    rw [overwrite, overwrite, hlen, List.append_assoc l, List.replicate_append_replicate, hsum,
      List.drop_eq_nil_of_le (by omega), List.drop_eq_nil_of_le (by omega)]
  · rw [List.replicate_zero, List.append_nil]

namespace HostFs

variable {h : HostFs} {fp : Stream}

/-- The files once a stream is closed. -/
theorem fclose_data (h : HostFs) (fp : Stream) : (h.fclose fp).data =
    if fp.pending = [] then h.data
    else Function.update h.data fp.inode
      (overwrite (h.data fp.inode) (fp.pos - fp.pending.length) fp.pending) := by
  unfold fclose fflush
  cases hp : fp.pending with
  | nil => rw [if_pos rfl]
  | cons b l => rfl

/-- A stream is open for writing on file `i`, and stands at `p`. -/
structure Stands (h : HostFs) (fp : Stream) (i p : ℕ) : Prop where
  writable : fp.writable = true
  inode : fp.inode = i
  pos : fp.pos = p
  front : fp.pending.length ≤ p
  held : h.buffered = false → fp.pending = []

/-- **What a write puts into the file**, at once or when the stream is closed. -/
theorem Stands.fwrite {i p : ℕ} (hs : Stands h fp i p) {buf : List Byte} (hbuf : buf ≠ []) :
    Stands (h.fwrite fp buf).1 (h.fwrite fp buf).2.1 i (p + buf.length) ∧
      ((h.fwrite fp buf).1.fclose (h.fwrite fp buf).2.1).data =
        Function.update (h.fclose fp).data i (overwrite ((h.fclose fp).data i) p buf) := by
  obtain ⟨hw, rfl, rfl, hfront, hheld⟩ := hs
  unfold HostFs.fwrite
  rw [if_pos hw]
  cases hb : h.buffered with
  | false =>
    have hnil := hheld hb
    rw [if_neg Bool.false_ne_true]
    refine ⟨⟨hw, rfl, rfl, ?_, fun _ => hnil⟩, ?_⟩
    · dsimp only
      rw [hnil]
      exact Nat.zero_le _
    · rw [fclose_data, fclose_data, if_pos hnil, if_pos hnil]
      rfl
  | true =>
    rw [if_pos rfl]
    refine ⟨⟨hw, rfl, rfl, ?_, fun hoff => absurd (hb.symm.trans hoff) (by decide)⟩, ?_⟩
    · dsimp only
      rw [List.length_append]
      omega
    · have hne : fp.pending ++ buf ≠ [] := fun hnil => hbuf (List.append_eq_nil_iff.mp hnil).2
      have hstart : fp.pos + buf.length - (fp.pending ++ buf).length = fp.pos - fp.pending.length := by
        rw [List.length_append]
        omega
      rw [fclose_data, fclose_data, if_neg hne]
      dsimp only
      rw [hstart]
      by_cases hp : fp.pending = []
      · rw [if_pos hp, hp]
        rfl
      · have hend : fp.pos - fp.pending.length + fp.pending.length = fp.pos :=
          Nat.sub_add_cancel hfront
        rw [if_neg hp, Function.update_self, Function.update_idem, overwrite_append, hend]

/-- A write of which a part is taken. -/
theorem Stands.fwrite_some {i p : ℕ} (hs : Stands h fp i p) (buf : List Byte) (n : ℕ) :
    Stands (h.fwrite_some fp buf n).1 (h.fwrite_some fp buf n).2.1 i (p + (buf.take n).length) ∧
      ((buf.take n = [] ∧ ((h.fwrite_some fp buf n).1.fclose (h.fwrite_some fp buf n).2.1).data =
          (h.fclose fp).data) ∨
        buf.take n ≠ [] ∧ ((h.fwrite_some fp buf n).1.fclose (h.fwrite_some fp buf n).2.1).data =
          Function.update (h.fclose fp).data i
            (overwrite ((h.fclose fp).data i) p (buf.take n))) := by
  unfold HostFs.fwrite_some
  cases htaken : buf.take n with
  | nil => exact ⟨hs, .inl ⟨rfl, rfl⟩⟩
  | cons b l =>
    obtain ⟨hs', hdata⟩ := hs.fwrite (List.cons_ne_nil b l)
    exact ⟨hs', .inr ⟨List.cons_ne_nil b l, hdata⟩⟩

end HostFs

namespace CpmFileSystem

variable {fs fs' : CpmFileSystem} {fcb_addr : BitVec 16} {slot : Fin 16}

/-! ## 4. A slot's stream -/

/-- The files, with what the stream of a slot holds back. -/
def view (fs : CpmFileSystem) (slot : Fin 16) : ℕ → List Byte :=
  (fs.host.fclose (fs.m_files slot).fp).data

theorem seek_view (slot : Fin 16) (offset : ℕ) : (fs.seek slot offset).view slot = fs.view slot := by
  unfold view
  rw [seek_file, HostFs.fclose, HostFs.fflush_of_nil _ _ rfl]
  rfl

theorem seek_end_file (slot : Fin 16) : (fs.seek_end slot).m_files slot =
    { fs.m_files slot with fp := (fs.host.fseek_end (fs.m_files slot).fp).2 } :=
  Function.update_self _ _ _

theorem seek_end_view (slot : Fin 16) : (fs.seek_end slot).view slot = fs.view slot := by
  unfold view
  rw [seek_end_file, HostFs.fseek_end_stream, HostFs.fclose, HostFs.fflush_of_nil _ _ rfl]
  rfl

/-- The stream of a slot is open for writing on file `i`, and stands at `p`. -/
abbrev Cursor (fs : CpmFileSystem) (slot : Fin 16) (i p : ℕ) : Prop :=
  HostFs.Stands fs.host (fs.m_files slot).fp i p

/-- Moving a stream that is open for writing. -/
theorem seek_cursor (hw : (fs.m_files slot).fp.writable = true) (offset : ℕ) :
    Cursor (fs.seek slot offset) slot (fs.m_files slot).fp.inode offset := by
  constructor <;> rw [seek_file]
  · exact hw
  · exact Nat.zero_le _
  · exact fun _ => rfl

theorem write_some_file (slot : Fin 16) (buf : List Byte) (n : ℕ) :
    (fs.write_some slot buf n).1.m_files slot =
      { fs.m_files slot with fp := (fs.host.fwrite_some (fs.m_files slot).fp buf n).2.1 } :=
  Function.update_self _ _ _

theorem cursor_write_some {i p : ℕ} (h : Cursor fs slot i p) (buf : List Byte) (n : ℕ) :
    Cursor (fs.write_some slot buf n).1 slot i (p + (buf.take n).length) ∧
      ((buf.take n = [] ∧ (fs.write_some slot buf n).1.view slot = fs.view slot) ∨
        buf.take n ≠ [] ∧ (fs.write_some slot buf n).1.view slot =
          Function.update (fs.view slot) i (overwrite (fs.view slot i) p (buf.take n))) := by
  unfold Cursor view
  rw [write_some_file]
  exact h.fwrite_some buf n

/-- **The zeros the host takes** stand behind the end of the file, and not behind the record's
beginning. -/
theorem zero_fill_some_view {i offset : ℕ} (fill : ℕ → ℕ) {files : ℕ → List Byte} {l : List Byte}
    (fs : CpmFileSystem) (cur_size : ℕ) : ∀ {m : ℕ}, Cursor fs slot i (l.length + m) →
      fs.view slot = Function.update files i (l ++ List.replicate m 0) → l.length + m ≤ cur_size →
      cur_size ≤ offset →
        ∃ m', l.length + m' ≤ offset ∧
          Cursor (zero_fill_some slot offset fill fs cur_size) slot i (l.length + m') ∧
          (zero_fill_some slot offset fill fs cur_size).view slot =
            Function.update files i (l ++ List.replicate m' 0) := by
  fun_induction zero_fill_some slot offset fill fs cur_size with
  | case1 fs cur_size hlt chunk =>
    rename_i ih
    intro m hcursor hview hm hle
    have hchunk : cur_size + chunk ≤ offset := by
      unfold chunk
      split_ifs <;> omega
    have htaken : (List.replicate chunk (0 : Byte)).take (fill cur_size) =
        List.replicate (min (fill cur_size) chunk) 0 := List.take_replicate
    obtain ⟨hcursor', hview'⟩ :=
      cursor_write_some hcursor (List.replicate chunk 0) (fill cur_size)
    rw [htaken] at hcursor' hview'
    rw [List.length_replicate, Nat.add_assoc] at hcursor'
    refine ih hcursor' ?_ (by omega) hchunk
    rcases hview' with ⟨hnil, hsame⟩ | ⟨-, hwritten⟩
    · rw [hsame, hview, (List.replicate_eq_nil_iff _).mp hnil, Nat.add_zero]
    · rw [hwritten, hview, Function.update_self, Function.update_idem, overwrite_end]
  | case2 fs cur_size hge =>
    intro m hcursor hview hm hle
    exact ⟨m, hm.trans hle, hcursor, hview⟩

/-! ## 5. Both functions -/

/-- What moving and writing a slot's stream leaves alone. -/
structure Streaming (fs fs' : CpmFileSystem) : Prop where
  mem : fs'.m_mem = fs.m_mem
  dma : fs'.m_dma_addr = fs.m_dma_addr
  tag : fs'.m_caller_tag = fs.m_caller_tag
  active : ∀ i, (fs'.m_files i).active = (fs.m_files i).active

theorem Streaming.trans {fs'' : CpmFileSystem} (h : Streaming fs fs') (h' : Streaming fs' fs'') :
    Streaming fs fs'' where
  mem := h'.mem.trans h.mem
  dma := h'.dma.trans h.dma
  tag := h'.tag.trans h.tag
  active i := (h'.active i).trans (h.active i)

/-- A slot whose stream alone is changed. -/
theorem streaming_fp (fs : CpmFileSystem) (slot : Fin 16) (fp : Stream) (host : HostFs) :
    Streaming fs { fs with
      m_files := Function.update fs.m_files slot { fs.m_files slot with fp := fp }
      host := host } where
  mem := rfl
  dma := rfl
  tag := rfl
  active i := by
    dsimp only
    by_cases hi : i = slot
    · rw [hi, Function.update_self]
    · rw [Function.update_of_ne hi]

theorem streaming_zero_fill_some {offset : ℕ} {fill : ℕ → ℕ} (fs : CpmFileSystem) (cur_size : ℕ) :
    Streaming fs (zero_fill_some slot offset fill fs cur_size) := by
  fun_induction zero_fill_some slot offset fill fs cur_size with
  | case1 fs cur_size hlt chunk =>
    rename_i ih
    exact (streaming_fp fs slot _ _).trans ih
  | case2 fs cur_size hge => exact ⟨rfl, rfl, rfl, fun _ => rfl⟩

theorem streaming_fill_gap (fs : CpmFileSystem) (fill : ℕ → ℕ) (slot : Fin 16) (offset : ℕ) :
    Streaming fs (fs.fill_gap fill slot offset) := by
  have hend : Streaming fs (fs.seek_end slot) := streaming_fp fs slot _ _
  unfold fill_gap
  dsimp only
  split_ifs
  · exact (hend.trans (streaming_fp _ slot _ _)).trans (streaming_zero_fill_some _ _)
  · exact hend

/-- The gap before a record, filled as far as the host takes the zeros. -/
theorem fill_gap_view (hw : (fs.m_files slot).fp.writable = true) (fill : ℕ → ℕ) (offset : ℕ) :
    ((fs.fill_gap fill slot offset).m_files slot).fp.writable = true ∧
      ((fs.fill_gap fill slot offset).m_files slot).fp.inode = (fs.m_files slot).fp.inode ∧
      ∃ m, ((fs.view slot (fs.m_files slot).fp.inode).length + m ≤ offset ∨ m = 0) ∧
        (fs.fill_gap fill slot offset).view slot =
          Function.update (fs.view slot) (fs.m_files slot).fp.inode
            (fs.view slot (fs.m_files slot).fp.inode ++ List.replicate m 0) := by
  have hend := @seek_end_file fs slot
  have hwend : ((fs.seek_end slot).m_files slot).fp.writable = true := by
    rw [hend, HostFs.fseek_end_stream]
    exact hw
  have hiend : ((fs.seek_end slot).m_files slot).fp.inode = (fs.m_files slot).fp.inode := by
    rw [hend, HostFs.fseek_end_stream]
  have hzero : Function.update (fs.view slot) (fs.m_files slot).fp.inode
      (fs.view slot (fs.m_files slot).fp.inode ++ List.replicate 0 0) = fs.view slot := by
    rw [List.replicate_zero, List.append_nil, Function.update_eq_self]
  have hsize : (fs.host.fseek_end (fs.m_files slot).fp).2.pos =
      (fs.view slot (fs.m_files slot).fp.inode).length := by
    rw [HostFs.fseek_end_stream]
    rfl
  unfold fill_gap
  dsimp only
  rw [hsize]
  by_cases hgap : offset > (fs.view slot (fs.m_files slot).fp.inode).length
  · rw [if_pos hgap]
    have hcursor := seek_cursor hwend (fs.view slot (fs.m_files slot).fp.inode).length
    rw [hiend] at hcursor
    obtain ⟨m, hm, hcursor', hview⟩ := zero_fill_some_view fill _ _ hcursor
      (((seek_view slot _).trans (seek_end_view slot)).trans hzero.symm) (Nat.le_refl _) hgap.le
    exact ⟨hcursor'.writable, hcursor'.inode, m, .inl hm, hview⟩
  · rw [if_neg hgap]
    exact ⟨hwend, hiend, 0, .inr rfl, (seek_end_view slot).trans hzero.symm⟩

/-- **The two functions agree**, whatever the host takes of the zeros and of the record: in their
code, in the files, and in the position of the FCB. -/
structure ZeroFillAgrees (fs : CpmFileSystem) (fcb_addr : BitVec 16) (fill : ℕ → ℕ) (n : ℕ) :
    Prop where
  code : (fs.write_rand_zf_some fcb_addr fill n).2 = (fs.write_rand_some fcb_addr n).2
  file : ((fs.write_rand_zf_some fcb_addr fill n).1.flushed fcb_addr).data =
    ((fs.write_rand_some fcb_addr n).1.flushed fcb_addr).data
  position : ∀ i ∈ [FCB_EX, FCB_S2, FCB_CR],
    (fs.write_rand_zf_some fcb_addr fill n).1.mem_read (fcb_addr + i) =
      (fs.write_rand_some fcb_addr n).1.mem_read (fcb_addr + i)

/-- The host takes the whole record: the file is open for writing, and all is taken. -/
def RecordTaken (fs : CpmFileSystem) (fcb_addr : BitVec 16) (n : ℕ) : Prop :=
  128 ≤ n ∧ ∀ fp, fs.fcb_stream fcb_addr = some fp → fp.writable = true

theorem write_some_count (slot : Fin 16) (buf : List Byte) (n : ℕ) :
    (fs.write_some slot buf n).2 =
      if (fs.m_files slot).fp.writable then min n buf.length else 0 := by
  have hcount : (fs.write_some slot buf n).2 =
      (fs.host.fwrite_some (fs.m_files slot).fp buf n).2.2 := rfl
  rw [hcount, HostFs.fwrite_some, ← List.length_take]
  cases buf.take n with
  | nil => exact (ite_self _).symm
  | cons b l => exact HostFs.fwrite_count _ _ _

/-- The code of `F_WRITERAND` says whether the record is taken. -/
theorem write_record_some_code (fcb_addr : BitVec 16) (n : ℕ) (slot : Fin 16) (offset : ℕ) :
    (fs.write_record_some fcb_addr n slot offset).2 =
      if (fs.m_files slot).fp.writable ∧ 128 ≤ n then 0 else 1 := by
  unfold write_record_some
  dsimp only
  rw [write_some_count, length_dma_read_block, seek_file]
  dsimp only
  cases (fs.m_files slot).fp.writable with
  | false => rfl
  | true =>
    rw [if_pos rfl]
    by_cases hn : 128 ≤ n
    · rw [Nat.min_eq_right hn, if_neg (not_not.mpr rfl), if_pos ⟨rfl, hn⟩]
    · rw [if_pos (by omega), if_neg fun h => hn h.2]

/-- The slot an operation gets is the one its FCB leads to from then on. -/
theorem ensure_open_find (h : (fs.ensure_open fcb_addr).2 = some slot) :
    (fs.ensure_open fcb_addr).1.find_file_by_fcb fcb_addr = some slot := by
  have hreopen : ∀ s : CpmFileSystem, (s.reopen fcb_addr).2 = some slot →
      (s.reopen fcb_addr).1.find_file_by_fcb fcb_addr = some slot := by
    intro s hs
    unfold reopen at hs ⊢
    dsimp only at hs ⊢
    cases hstat : s.host.stat (s.fcb_to_host_path fcb_addr) with
    | none =>
      rw [hstat] at hs
      cases hs
    | some node =>
      cases hslot : s.find_open_slot with
      | none =>
        rw [hstat, hslot] at hs
        cases hs
      | some slot' =>
        cases hfp : s.fopen_update (s.fcb_to_host_path fcb_addr) with
        | none =>
          rw [hstat, hslot, hfp] at hs
          cases hs
        | some fp =>
          rw [hstat, hslot, hfp] at hs
          obtain rfl : slot' = slot := Option.some.inj hs
          have hfile : (s.use_slot slot' fp fcb_addr (s.fcb_to_host_path fcb_addr)).m_files slot' =
              ⟨fp, fcb_addr, s.m_caller_tag, true, s.fcb_to_host_path fcb_addr⟩ :=
            Function.update_self _ _ _
          exact find_file_by_fcb_handle fcb_addr slot' (congrArg OpenFile.active hfile)
  unfold ensure_open at h ⊢
  cases hf : fs.find_file_by_fcb fcb_addr with
  | none =>
    rw [hf] at h
    exact hreopen fs h
  | some slot' =>
    rw [hf] at h
    dsimp only at h ⊢
    by_cases hp : (fs.m_files slot').host_path = fs.fcb_to_host_path fcb_addr
    · rw [if_pos hp] at h ⊢
      obtain rfl : slot' = slot := Option.some.inj h
      exact hf
    · rw [if_neg hp] at h ⊢
      exact hreopen _ h

/-- The position that is stored is the same after any work on a stream. -/
theorem Streaming.update_mem_read (h : Streaming fs fs') (fcb_addr : BitVec 16) (offset : ℕ)
    (a : BitVec 16) : (fs'.update_fcb_after_read fcb_addr offset).mem_read a =
      (fs.update_fcb_after_read fcb_addr offset).mem_read a := by
  unfold update_fcb_after_read CpmFileSystem.mem_write CpmFileSystem.mem_read
  dsimp only
  rw [h.mem, h.tag]

/-- The files after work on the stream of an FCB's slot, once its position is stored. -/
theorem Streaming.flushed_data (h : Streaming fs fs') (hmap : fs.m_mem.map.Reachable)
    (hf : fs.find_file_by_fcb fcb_addr = some slot) (offset : ℕ) :
    ((fs'.update_fcb_after_read fcb_addr offset).flushed fcb_addr).data = fs'.view slot := by
  have hupdate := update_alikeOff fs' fcb_addr offset
  have hread : fs'.mem_read = fs.mem_read := by
    unfold CpmFileSystem.mem_read
    rw [h.mem, h.tag]
  have hfind : fs'.find_file_by_fcb fcb_addr = some slot := by
    rw [← hf]
    unfold find_file_by_fcb
    simp only [hread, h.active]
  have hmap' : fs'.m_mem.map.Reachable := by
    rw [h.mem]
    exact hmap
  rw [flushed, hupdate.find_file_by_fcb (fcb_bytes_notMem_position hmap' fcb_addr), hfind]
  dsimp only
  rw [hupdate.host, hupdate.files]
  rfl

/-- The record is in its file, behind whatever zeros were taken. -/
theorem record_view {i offset n : ℕ} (hw : (fs.m_files slot).fp.writable = true)
    (hi : (fs.m_files slot).fp.inode = i) {buf : List Byte} (hbuf : buf ≠ [])
    (hn : buf.length ≤ n) :
    ((fs.seek slot offset).write_some slot buf n).1.view slot =
      Function.update (fs.view slot) i (overwrite (fs.view slot i) offset buf) := by
  have hcursor := seek_cursor hw offset
  rw [hi] at hcursor
  have hwrite := (cursor_write_some hcursor buf n).2
  rw [List.take_of_length_le hn, seek_view] at hwrite
  rcases hwrite with ⟨hnil, -⟩ | ⟨-, hview⟩
  · exact absurd hnil hbuf
  · exact hview

/-- A record that is taken whole. -/
theorem write_record_some_taken (hw : (fs.m_files slot).fp.writable = true) {n : ℕ} (hn : 128 ≤ n)
    (fcb_addr : BitVec 16) (offset : ℕ) : fs.write_record_some fcb_addr n slot offset =
      (((fs.seek slot offset).write_some slot (dma_read_block fs.m_dma_addr 0 128 fs.m_mem)
        n).1.update_fcb_after_read fcb_addr (offset + 128), 0) := by
  have hcount : ((fs.seek slot offset).write_some slot
      (dma_read_block (fs.seek slot offset).m_dma_addr 0 128 (fs.seek slot offset).m_mem) n).2 = 128 := by
    rw [write_some_count, length_dma_read_block, seek_file, Nat.min_eq_right hn]
    exact if_pos hw
  unfold write_record_some
  dsimp only
  rw [if_neg (not_not.mpr hcount)]
  rfl

/-- **A record that is taken whole** is the same in both files, at the same position. -/
theorem write_record_zf_some_taken (hmap : fs.m_mem.map.Reachable)
    (hf : fs.find_file_by_fcb fcb_addr = some slot) (hw : (fs.m_files slot).fp.writable = true)
    (fill : ℕ → ℕ) {n : ℕ} (hn : 128 ≤ n) (offset : ℕ) :
    (((fs.write_record_zf_some fcb_addr fill n slot offset).1.flushed fcb_addr).data =
        ((fs.write_record_some fcb_addr n slot offset).1.flushed fcb_addr).data) ∧
      ∀ a, (fs.write_record_zf_some fcb_addr fill n slot offset).1.mem_read a =
        (fs.write_record_some fcb_addr n slot offset).1.mem_read a := by
  have hgap := streaming_fill_gap fs fill slot offset
  obtain ⟨hwgap, higap, m, hm, hview⟩ := @fill_gap_view fs slot hw fill offset
  have hbuf : dma_read_block (fs.fill_gap fill slot offset).m_dma_addr 0 128
      (fs.fill_gap fill slot offset).m_mem = dma_read_block fs.m_dma_addr 0 128 fs.m_mem := by
    rw [hgap.mem, hgap.dma]
  have hne := dma_read_block_ne_nil fs.m_dma_addr fs.m_mem
  have hlen : (dma_read_block fs.m_dma_addr 0 128 fs.m_mem).length ≤ n := by
    rw [length_dma_read_block]
    exact hn
  generalize hb : dma_read_block fs.m_dma_addr 0 128 fs.m_mem = buf at hbuf hne hlen
  have hzf : fs.write_record_zf_some fcb_addr fill n slot offset =
      ((((fs.fill_gap fill slot offset).seek slot offset).write_some slot buf
        n).1.update_fcb_after_read fcb_addr (offset + 128), 0) := by
    rw [← hbuf]
    rfl
  have hstream : Streaming fs ((fs.seek slot offset).write_some slot buf n).1 :=
    (streaming_fp fs slot _ _).trans (streaming_fp _ slot _ _)
  have hstream' : Streaming fs
      (((fs.fill_gap fill slot offset).seek slot offset).write_some slot buf n).1 :=
    (hgap.trans (streaming_fp _ slot _ _)).trans (streaming_fp _ slot _ _)
  rw [write_record_some_taken hw hn, hb, hzf]
  refine ⟨?_, fun a => ?_⟩
  · rw [hstream.flushed_data hmap hf, hstream'.flushed_data hmap hf, record_view hw rfl hne hlen,
      record_view hwgap higap hne hlen, hview, Function.update_self, Function.update_idem,
      overwrite_fill _ hm]
  · rw [hstream.update_mem_read, hstream'.update_mem_read]

/-- A file A that the host lets nobody write to. -/
def readonlyA : CpmFileSystem :=
  { emptyA with host := { emptyA.host with
      nodes := [⟨[0x41], 1, true, false⟩, ⟨onA [0x41], 0, false, true⟩] } }

end CpmFileSystem

end Cpm8000.Host
