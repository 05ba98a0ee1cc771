/-
# The scroll-back buffer of a virtual terminal (`drivers/tty/virtterm.c`)

`vt_handle_char` keeps what was written to a terminal in a circular buffer of 125 rows.  Head, tail
and cursor are indices into it; when the cursor leaves the last row, the tail moves on by a row,
which is cleared, and the head as well if the buffer is full.

`Terminal` is a terminal that forgets nothing.  `Shows` relates the two: the rows from head to tail
are the last rows of the terminal, 124 of them once there are so many.  One character keeps the
relation (`shows_handleChar`), and so does every stream (`scrollback_simulates`).

* The arithmetic is C's, on `int`: division and remainder go towards zero.
* A write outside `vt_buf` is `.wild`.
* `vt_top`, which only scrolling moves, is left out.
-/
import Weenix.Kernel

namespace Weenix.Tty

/-! ## 1. The buffer -/

def displayWidth : Int := 80

def displayHeight : Int := 25

/-- `SCROLL_BUFSIZE`, which is `5 * DISPLAY_SIZE` -/
def scrollBufsize : Int := 5 * (displayWidth * displayHeight)

structure Virtterm where
  vtHead : Int
  vtTail : Int
  vtCursor : Int
  vtBuf : Int → UInt8

def circDist (dst src : Int) : Int := (dst - src + scrollBufsize).tmod scrollBufsize

/-- `next_row(i)` -/
def nextRow (i : Int) : Int := ((i.tdiv displayWidth + 1) * displayWidth).tmod scrollBufsize

/-- The value `buf_add(ptr, amt)` gives to `ptr`. -/
def bufAdd (ptr amt : Int) : Int := (ptr + amt + scrollBufsize).tmod scrollBufsize

/-- What `vt_init` sets up. -/
def vtInit : Virtterm := ⟨0, displayWidth, 0, fun _ => 0⟩

/-- `vt->vt_buf[i] = c` -/
def setBuf (vt : Virtterm) (i : Int) (c : UInt8) : Except Halt Virtterm :=
  if 0 ≤ i ∧ i < scrollBufsize then .ok { vt with vtBuf := update vt.vtBuf i c }
  else .error .wild

/-- `memset(vt->vt_buf + off, 0, len)` -/
def clearBuf (vt : Virtterm) (off len : Int) : Except Halt Virtterm :=
  if 0 ≤ off ∧ 0 ≤ len ∧ off + len ≤ scrollBufsize then
    .ok { vt with vtBuf := fun i => if off ≤ i ∧ i < off + len then 0 else vt.vtBuf i }
  else .error .wild

/-- What follows the label `handle_tail`. -/
def handleTail (vt : Virtterm) (newCursor : Int) : Except Halt Virtterm :=
  if circDist vt.vtTail vt.vtCursor ≤ circDist newCursor vt.vtCursor then do
    let newTail := nextRow newCursor
    let vt := if circDist vt.vtTail newTail ≤ circDist vt.vtTail vt.vtHead then
        { vt with vtHead := nextRow newTail }
      else vt
    let vt ← (if vt.vtTail ≤ newTail then clearBuf vt vt.vtTail (newTail - vt.vtTail) else do
        let vt ← clearBuf vt vt.vtTail (scrollBufsize - vt.vtTail)
        clearBuf vt 0 newTail)
    return { vt with vtTail := newTail }
  else .ok vt

/-- `vt_handle_char(vt, c)`; the number is what it returns. -/
def vtHandleChar (vt : Virtterm) (c : UInt8) : Except Halt (Virtterm × Nat) :=
  if c = 8 then    -- '\b'
    .ok ({ vt with
      vtCursor := if vt.vtCursor ≠ vt.vtHead then bufAdd vt.vtCursor (-1) else vt.vtCursor }, 0)
  else if c = 13 then    -- '\r'
    .ok ({ vt with vtCursor := vt.vtCursor.tdiv displayWidth * displayWidth }, 0)
  else if c = 10 then do    -- '\n'
    let newCursor := nextRow vt.vtCursor
    let vt ← handleTail vt newCursor
    return ({ vt with vtCursor := newCursor }, 0)
  else do
    let newCursor := bufAdd vt.vtCursor 1
    let vt ← setBuf vt vt.vtCursor c
    let vt ← handleTail vt newCursor
    return ({ vt with vtCursor := newCursor }, 1)

/-- `vt_handle_char` for each character in turn. -/
def handleChars (vt : Virtterm) (cs : List UInt8) : Except Halt Virtterm :=
  cs.foldlM (fun vt c => Prod.fst <$> vtHandleChar vt c) vt

/-! ## 2. A terminal that forgets nothing -/

/-- How many rows are kept at most. -/
def maxRows : Nat := 124

/-- Rows of 80 cells, the first `rows` of which there are, and the place of the cursor. -/
structure Terminal where
  cell : Nat → Nat → UInt8
  rows : Nat
  row : Nat
  col : Nat

namespace Terminal

/-- One row, blank. -/
def fresh : Terminal := ⟨fun _ _ => 0, 1, 0, 0⟩

/-- The first of the rows that are kept. -/
def oldest (t : Terminal) : Nat := t.rows - maxRows

/-- The cursor goes to the start of the next row; below the last row that is a new one, blank. -/
def lineFeed (t : Terminal) : Terminal :=
  if t.row + 1 < t.rows then { t with row := t.row + 1, col := 0 }
  else ⟨update t.cell t.rows fun _ => 0, t.rows + 1, t.rows, 0⟩

/-- The cursor goes back by a cell, but not out of the rows that are kept. -/
def backspace (t : Terminal) : Terminal :=
  if 0 < t.col then { t with col := t.col - 1 }
  else if t.oldest < t.row then { t with row := t.row - 1, col := 79 }
  else t

/-- A character is written at the cursor, which goes to the next cell. -/
def put (t : Terminal) (c : UInt8) : Terminal :=
  let t := { t with cell := update t.cell t.row (update (t.cell t.row) t.col c) }
  if t.col + 1 < 80 then { t with col := t.col + 1 } else t.lineFeed

def handle (t : Terminal) (c : UInt8) : Terminal :=
  if c = 8 then t.backspace
  else if c = 13 then { t with col := 0 }
  else if c = 10 then t.lineFeed
  else t.put c

/-- The cursor is in one of the rows that are kept. -/
structure Ok (t : Terminal) : Prop where
  oldest_le : t.oldest ≤ t.row
  row_lt : t.row < t.rows
  col_lt : t.col < 80

end Terminal

/-! ## 3. Places in the buffer -/

/-- The index of a cell. -/
def slot (row col : Nat) : Int := ((row * 80 + col) % 10000 : Nat)

section
variable {i j : Int} {row row' col col' : Nat}

theorem scrollBufsize_eq : scrollBufsize = 10000 := rfl

/-- A row starts at a multiple of the width. -/
theorem dvd_slot : displayWidth ∣ slot row 0 := by
  unfold slot displayWidth
  omega

theorem slot_add :
    (slot row 0 + row' * displayWidth + col) % scrollBufsize = slot (row + row') col := by
  rw [scrollBufsize_eq]
  unfold slot displayWidth
  omega

theorem slot_range : 0 ≤ slot row col ∧ slot row col < 10000 := by
  unfold slot
  omega

/-- Cells of 125 rows in a row have different places. -/
theorem slot_inj (hc : col < 80) (hc' : col' < 80) (h : row ≤ row' + 124) (h' : row' ≤ row + 124) :
    slot row col = slot row' col' ↔ row = row' ∧ col = col' := by
  unfold slot
  constructor
  · intro heq
    omega
  · rintro ⟨rfl, rfl⟩
    rfl

theorem circDist_eq (hi : 0 ≤ i) (hj : j < 10000) : circDist i j = (i - j + 10000) % 10000 := by
  rw [circDist, scrollBufsize_eq, Int.tmod_eq_emod_of_nonneg (by omega)]

theorem circDist_slot (h : row * 80 + col ≤ row' * 80 + col')
    (h' : row' * 80 + col' < row * 80 + col + 10000) :
    circDist (slot row' col') (slot row col) = row' * 80 + col' - (row * 80 + col) := by
  rw [circDist_eq slot_range.1 slot_range.2]
  unfold slot
  omega

theorem nextRow_eq (hi : 0 ≤ i) : nextRow i = (i / 80 + 1) * 80 % 10000 := by
  rw [nextRow, scrollBufsize_eq, displayWidth, Int.tdiv_eq_ediv_of_nonneg hi,
    Int.tmod_eq_emod_of_nonneg (by omega)]

theorem nextRow_slot (hc : col < 80) : nextRow (slot row col) = slot (row + 1) 0 := by
  rw [nextRow_eq slot_range.1]
  unfold slot
  omega

theorem rowStart_slot (hc : col < 80) :
    (slot row col).tdiv displayWidth * displayWidth = slot row 0 := by
  rw [displayWidth, Int.tdiv_eq_ediv_of_nonneg slot_range.1]
  unfold slot
  omega

theorem bufInc_slot : bufAdd (slot row col) 1 = slot row (col + 1) := by
  have := @slot_range row col
  rw [bufAdd, scrollBufsize_eq, Int.tmod_eq_emod_of_nonneg (by omega)]
  unfold slot
  omega

theorem slot_row_end : slot row 80 = slot (row + 1) 0 := by
  unfold slot
  omega

theorem bufDec_slot : bufAdd (slot row (col + 1)) (-1) = slot row col := by
  have := @slot_range row (col + 1)
  rw [bufAdd, scrollBufsize_eq, Int.tmod_eq_emod_of_nonneg (by omega)]
  unfold slot
  omega

end

/-! ## 4. The simulation -/

/-- The buffer shows the last rows of the terminal, and has its cursor at the same cell. -/
structure Shows (vt : Virtterm) (t : Terminal) : Prop where
  ok : t.Ok
  head : vt.vtHead = slot t.oldest 0
  tail : vt.vtTail = slot t.rows 0
  cursor : vt.vtCursor = slot t.row t.col
  cell : ∀ r, t.oldest ≤ r → r < t.rows → ∀ c < 80, vt.vtBuf (slot r c) = t.cell r c

section
variable {vt : Virtterm} {rows row col : Nat}

theorem handleTail_above {row' col' : Nat} (htail : vt.vtTail = slot rows 0)
    (hcur : vt.vtCursor = slot row col) (hold : rows ≤ row + maxRows)
    (hfwd : row * 80 + col ≤ row' * 80 + col') (hin : row' * 80 + col' < rows * 80) :
    handleTail vt (slot row' col') = .ok vt := by
  unfold maxRows at hold
  rw [handleTail, htail, hcur, circDist_slot (by omega) (by omega),
    circDist_slot (by omega) (by omega), if_neg (by omega)]

/-- Clearing the row at the tail, which may be the last one of the buffer. -/
theorem clearRow (vt : Virtterm) (rows : Nat) : ∃ buf, (if slot rows 0 ≤ slot (rows + 1) 0 then
        clearBuf vt (slot rows 0) (slot (rows + 1) 0 - slot rows 0)
      else do
        let vt ← clearBuf vt (slot rows 0) (scrollBufsize - slot rows 0)
        clearBuf vt 0 (slot (rows + 1) 0)) = .ok { vt with vtBuf := buf } ∧
      ∀ i, buf i = if slot rows 0 ≤ i ∧ i < slot rows 0 + 80 then 0 else vt.vtBuf i := by
  have h0 := @slot_range rows 0
  by_cases hwrap : slot rows 0 ≤ slot (rows + 1) 0
  · have hlen : slot (rows + 1) 0 - slot rows 0 = 80 := by
      unfold slot at hwrap ⊢
      omega
    have hend : slot rows 0 + 80 ≤ scrollBufsize := by
      rw [scrollBufsize_eq]
      unfold slot at hwrap ⊢
      omega
    rw [if_pos hwrap, hlen, clearBuf, if_pos ⟨h0.1, by decide, hend⟩]
    exact ⟨_, rfl, fun i => rfl⟩
  · have hlast : slot rows 0 = 9920 ∧ slot (rows + 1) 0 = 0 := by
      unfold slot at hwrap ⊢
      omega
    rw [if_neg hwrap, hlast.1, hlast.2, clearBuf, if_pos (by decide), ok_bind, clearBuf,
      if_pos (by decide)]
    refine ⟨_, rfl, fun i => ?_⟩
    have hnone : ¬ (0 ≤ i ∧ i < 0 + 0) := by omega
    rw [if_neg hnone]
    rfl

/-- The cursor leaves the last row: the row at the tail is cleared and opened, and the oldest one is
given up if there are 124. -/
theorem handleTail_open (hhead : vt.vtHead = slot (rows - maxRows) 0)
    (htail : vt.vtTail = slot rows 0)
    (hcur : vt.vtCursor = slot row col) (hlast : row + 1 = rows) (hcol : col < 80) :
    ∃ buf, handleTail vt (slot rows 0)
        = .ok ⟨slot (rows + 1 - maxRows) 0, slot (rows + 1) 0, vt.vtCursor, buf⟩ ∧
      (∀ c < 80, buf (slot rows c) = 0) ∧
      ∀ r, rows ≤ r + maxRows → r < rows → ∀ c < 80, buf (slot r c) = vt.vtBuf (slot r c) := by
  unfold maxRows at *
  obtain ⟨head, tail, cursor, buf₀⟩ := vt
  subst hhead htail hcur
  -- the new tail is one row further, which is 124 rows before the old one
  have hback : circDist (slot rows 0) (slot (rows + 1) 0) = 9920 := by
    have heq : slot rows 0 = slot (rows + 125) 0 := by
      unfold slot
      omega
    rw [heq, circDist_slot (by omega) (by omega)]
    omega
  have hkept : circDist (slot rows 0) (slot (rows - 124) 0) = (min rows 124 : Nat) * 80 := by
    rw [circDist_slot (by omega) (by omega)]
    omega
  have hhead : (if circDist (slot rows 0) (slot (rows + 1) 0) ≤
    circDist (slot rows 0) (slot (rows - 124) 0) then
        Virtterm.mk (nextRow (slot (rows + 1) 0)) (slot rows 0) (slot row col) buf₀
      else ⟨slot (rows - 124) 0, slot rows 0, slot row col, buf₀⟩)
      = ⟨slot (rows + 1 - 124) 0, slot rows 0, slot row col, buf₀⟩ := by
    rw [hback, hkept, nextRow_slot (by decide)]
    split
    · have hnext : slot (rows + 1 + 1) 0 = slot (rows + 1 - 124) 0 := by
        unfold slot
        omega
      rw [hnext]
    · have hsame : slot (rows + 1 - 124) 0 = slot (rows - 124) 0 := by
        unfold slot
        omega
      rw [hsame]
  obtain ⟨buf, hbuf, hval⟩ :=
    clearRow ⟨slot (rows + 1 - 124) 0, slot rows 0, slot row col, buf₀⟩ rows
  refine ⟨buf, ?_, fun c hc => ?_, fun r hr hr' c hc => ?_⟩
  · rw [handleTail, circDist_slot (by omega) (by omega), if_pos (by omega),
      nextRow_slot (by decide)]
    dsimp only
    rw [hhead]
    rw [hbuf]
    rfl
  · rw [hval, if_pos]
    unfold slot
    omega
  · rw [hval, if_neg]
    unfold slot
    omega

end

theorem shows_init : Shows vtInit Terminal.fresh :=
  ⟨⟨Nat.le_refl 0, Nat.zero_lt_one, by decide⟩, rfl, rfl, rfl, fun _ _ _ _ _ => rfl⟩

section
variable {vt : Virtterm} {t : Terminal}

variable (h : Shows vt t)
include h

theorem Shows.lineFeed : ∃ vt', handleTail vt (slot (t.row + 1) 0) = .ok vt' ∧
      Shows { vt' with vtCursor := slot (t.row + 1) 0 } t.lineFeed := by
  obtain ⟨hold, hrow, hcol⟩ := h.ok
  rw [Terminal.oldest] at hold
  by_cases hlast : t.row + 1 < t.rows
  · rw [Terminal.lineFeed, if_pos hlast]
    refine ⟨vt, handleTail_above h.tail h.cursor (by omega) (by omega) (by omega),
      ⟨?_, hlast, Nat.succ_pos 79⟩, h.head, h.tail, rfl, h.cell⟩
    exact Nat.le_trans hold (Nat.le_succ _)
  · have hrows : t.row + 1 = t.rows := by omega
    obtain ⟨buf, hok, hnew, hkeep⟩ := handleTail_open h.head h.tail h.cursor hrows hcol
    rw [hrows, Terminal.lineFeed, if_neg hlast]
    refine ⟨_, hok, ⟨?_, Nat.lt_succ_self _, Nat.succ_pos 79⟩, rfl, rfl, rfl,
      fun r hr hr' c hc => ?_⟩
    · unfold Terminal.oldest maxRows
      dsimp only
      omega
    · unfold Terminal.oldest maxRows at hr
      dsimp only at hr hr' ⊢
      by_cases hrn : r = t.rows
      · rw [hrn, update_self]
        exact hnew c hc
      · rw [update_of_ne hrn, hkeep r (by unfold maxRows; omega) (by omega) c hc]
        exact h.cell r (by unfold Terminal.oldest maxRows; omega) (by omega) c hc

theorem Shows.write (c : UInt8) : ∃ vt', setBuf vt vt.vtCursor c = .ok vt' ∧ Shows vt' { t with
        cell := update t.cell t.row (update (t.cell t.row) t.col c) } := by
  obtain ⟨hold, hrow, hcol⟩ := h.ok
  have hrange := @slot_range t.row t.col
  rw [setBuf, h.cursor, scrollBufsize_eq, if_pos hrange]
  refine ⟨_, rfl, ⟨hold, hrow, hcol⟩, h.head, h.tail, rfl, fun r hr hr' c' hc' => ?_⟩
  rw [Terminal.oldest] at hold
  replace hr : t.rows - maxRows ≤ r := hr
  replace hr' : r < t.rows := hr'
  unfold maxRows at hold hr
  have hinj : slot r c' = slot t.row t.col ↔ r = t.row ∧ c' = t.col :=
    slot_inj hc' hcol (by omega) (by omega)
  have hcell := h.cell r (by unfold Terminal.oldest maxRows; omega) hr' c' hc'
  by_cases hsame : r = t.row ∧ c' = t.col
  · rw [hinj.mpr hsame, hsame.1, hsame.2]
    simp
  · have hne : slot r c' ≠ slot t.row t.col := fun heq => hsame (hinj.mp heq)
    simp only [update_of_ne hne, hcell]
    by_cases hrow' : r = t.row
    · subst hrow'
      rw [update_self, update_of_ne fun heq => hsame ⟨rfl, heq⟩]
    · rw [update_of_ne hrow']

theorem Shows.put (c : UInt8) : ∃ vt' vt'', setBuf vt vt.vtCursor c = .ok vt' ∧
      handleTail vt' (bufAdd vt.vtCursor 1) = .ok vt'' ∧
      Shows { vt'' with vtCursor := bufAdd vt.vtCursor 1 } (t.put c) := by
  obtain ⟨vt', hset, hw⟩ := h.write c
  obtain ⟨hold, hrow, hcol⟩ := h.ok
  rw [Terminal.oldest] at hold
  rw [Terminal.put, h.cursor, bufInc_slot]
  rw [h.cursor] at hset
  by_cases hin : t.col + 1 < 80
  · rw [if_pos hin]
    refine ⟨vt', vt', hset, ?_, ⟨hw.ok.oldest_le, hrow, hin⟩, hw.head, hw.tail, rfl, hw.cell⟩
    exact handleTail_above hw.tail hw.cursor (by dsimp only; omega) (by dsimp only; omega)
      (by dsimp only; omega)
  · have hend : t.col + 1 = 80 := by omega
    rw [if_neg hin, hend, slot_row_end]
    obtain ⟨vt'', htail, hs⟩ := hw.lineFeed
    exact ⟨vt', vt'', hset, htail, hs⟩

theorem Shows.backspace : Shows { vt with
      vtCursor := if vt.vtCursor ≠ vt.vtHead then bufAdd vt.vtCursor (-1) else vt.vtCursor }
      t.backspace := by
  obtain ⟨hold, hrow, hcol⟩ := h.ok
  have hhead : vt.vtCursor = vt.vtHead ↔ t.row = t.oldest ∧ t.col = 0 := by
    rw [h.cursor, h.head]
    unfold Terminal.oldest maxRows at *
    exact slot_inj hcol (by decide) (by omega) (by omega)
  rw [Terminal.backspace]
  by_cases hpos : 0 < t.col
  · obtain ⟨col, hcol'⟩ : ∃ col, t.col = col + 1 := ⟨t.col - 1, by omega⟩
    have hne : vt.vtCursor ≠ vt.vtHead := fun heq => by
      omega
    rw [if_pos hne, if_pos hpos, h.cursor, hcol', bufDec_slot]
    exact ⟨⟨hold, hrow, by dsimp only; omega⟩, h.head, h.tail, rfl, h.cell⟩
  · have hcol0 : t.col = 0 := by omega
    rw [if_neg hpos]
    by_cases hup : t.oldest < t.row
    · obtain ⟨row, hrow'⟩ : ∃ row, t.row = row + 1 := ⟨t.row - 1, by omega⟩
      have hne : vt.vtCursor ≠ vt.vtHead := fun heq => by
        omega
      rw [if_pos hne, if_pos hup, h.cursor, hcol0, hrow', ← slot_row_end, bufDec_slot]
      refine ⟨⟨?_, ?_, Nat.lt_succ_self 79⟩, h.head, h.tail, rfl, h.cell⟩
      · change t.oldest ≤ row
        omega
      · change row < t.rows
        omega
    · rw [if_neg (not_not.mpr (hhead.mpr ⟨by omega, hcol0⟩)), if_neg hup]
      exact h

/-- **One character.** -/
theorem shows_handleChar (c : UInt8) :
    ∃ vt' ret, vtHandleChar vt c = .ok (vt', ret) ∧ Shows vt' (t.handle c) := by
  rw [vtHandleChar, Terminal.handle]
  split
  · exact ⟨_, _, rfl, h.backspace⟩
  split
  · refine ⟨_, _, rfl, ⟨h.ok.oldest_le, h.ok.row_lt, Nat.succ_pos 79⟩, h.head, h.tail, ?_, h.cell⟩
    rw [h.cursor, rowStart_slot h.ok.col_lt]
  split
  · obtain ⟨vt', hok, hs⟩ := h.lineFeed
    rw [h.cursor, nextRow_slot h.ok.col_lt]
    dsimp only
    rw [hok]
    exact ⟨_, _, rfl, hs⟩
  · obtain ⟨vt', vt'', hset, htail, hs⟩ := h.put c
    rw [hset, ok_bind, htail]
    exact ⟨_, _, rfl, hs⟩

end

theorem shows_handleChars {vt : Virtterm} {t : Terminal} (h : Shows vt t) (cs : List UInt8) :
    ∃ vt', handleChars vt cs = .ok vt' ∧ Shows vt' (cs.foldl Terminal.handle t) := by
  induction cs generalizing vt t with
  | nil => exact ⟨vt, rfl, h⟩
  | cons c cs ih =>
    obtain ⟨vt', ret, hok, hs⟩ := shows_handleChar h c
    obtain ⟨vt'', hok', hs'⟩ := ih hs
    refine ⟨vt'', ?_, hs'⟩
    rw [handleChars, List.foldlM_cons, hok]
    exact hok'

/-- **The scroll-back buffer is the end of a terminal that forgets nothing.**  For every stream of
characters on a fresh terminal, all writes stay inside `vt_buf`; head and tail are aligned to rows
and lie as many rows apart as are kept, which are all rows or 124; the rows between them are the
last rows of the unbounded terminal; and the cursor is between them, at the same cell. -/
theorem scrollback_simulates (cs : List UInt8) : ∃ vt, handleChars vtInit cs = .ok vt ∧
      let t := cs.foldl Terminal.handle Terminal.fresh
      let kept := min t.rows maxRows
      (0 ≤ vt.vtHead ∧ vt.vtHead < scrollBufsize ∧ displayWidth ∣ vt.vtHead) ∧
      (0 ≤ vt.vtTail ∧ vt.vtTail < scrollBufsize ∧ displayWidth ∣ vt.vtTail) ∧
      1 ≤ kept ∧ circDist vt.vtTail vt.vtHead = kept * displayWidth ∧
      (∀ k c : Nat, k < kept → c < 80 →
        vt.vtBuf ((vt.vtHead + k * displayWidth + c) % scrollBufsize)
          = t.cell (t.rows - kept + k) c) ∧
      (t.rows - kept ≤ t.row ∧ t.row < t.rows ∧ t.col < 80) ∧
      (0 ≤ vt.vtCursor ∧ vt.vtCursor < scrollBufsize) ∧
      circDist vt.vtCursor vt.vtHead = (t.row - (t.rows - kept) : Nat) * displayWidth + t.col ∧
      circDist vt.vtCursor vt.vtHead < circDist vt.vtTail vt.vtHead := by
  obtain ⟨vt, hok, h⟩ := shows_handleChars shows_init cs
  refine ⟨vt, hok, ?_⟩
  generalize cs.foldl Terminal.handle Terminal.fresh = t at h ⊢
  obtain ⟨hold, hrow, hcol⟩ := h.ok
  have holdest : t.rows - min t.rows maxRows = t.oldest := by
    unfold Terminal.oldest
    omega
  have hmax : min t.rows maxRows ≤ 124 := Nat.min_le_right ..
  have htail : circDist vt.vtTail vt.vtHead = (min t.rows maxRows : Nat) * displayWidth := by
    rw [h.tail, h.head, circDist_slot (by omega) (by omega), displayWidth]
    omega
  have hcur : circDist vt.vtCursor vt.vtHead = (t.row - t.oldest : Nat) * displayWidth + t.col := by
    rw [h.cursor, h.head, circDist_slot (by omega) (by omega), displayWidth]
    omega
  dsimp only
  rw [holdest, htail, hcur, h.tail, h.head, h.cursor]
  refine ⟨⟨slot_range.1, slot_range.2, dvd_slot⟩,
    ⟨slot_range.1, slot_range.2, dvd_slot⟩, ?_, rfl, ?_, ⟨hold, hrow, hcol⟩, slot_range, rfl, ?_⟩
  · omega
  · intro k c hk hc
    rw [slot_add]
    exact h.cell (t.oldest + k) (Nat.le_add_right ..) (by omega) c hc
  · rw [displayWidth]
    omega

end Weenix.Tty
