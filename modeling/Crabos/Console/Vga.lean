import Mathlib

/-!
# The text console (`kernel/src/console/vga.rs`)

Characters are drawn right into the video memory. Its offsets are raw pointers
there, which nothing checks, so each one that is read or written is recorded.
The geometry comes from fields of 16 bits, and no sum or product overflows.
-/
namespace Crabos.Vga

def RED : UInt8 := 0xed
def GREEN : UInt8 := 0xbd
def BLUE : UInt8 := 0xa6

def CHAR_HEIGHT : Nat := 16
def CHAR_WIDTH : Nat := 8
def STRIDE : Nat := 3

structure VgaText where
  vram : Nat → UInt8
  biosFont : Vector UInt8 4096
  width : Nat
  height : Nat
  pitch : Nat
  col : Nat
  row : Nat
  touched : List Nat

namespace VgaText

variable (vga : VgaText)

/-- `ptr::write` and `ptr::write_volatile`. -/
def write (off : Nat) (b : UInt8) : VgaText :=
  { vga with vram := Function.update vga.vram off b, touched := off :: vga.touched }

/-- `ptr::copy` within the video memory. -/
def copy (src dst count : Nat) : VgaText :=
  { vga with
    vram := fun x => if dst ≤ x ∧ x < dst + count then vga.vram (src + (x - dst)) else vga.vram x
    touched := List.range' src count ++ List.range' dst count ++ vga.touched }

def writePixel (line x : Nat) (blue green red : UInt8) : VgaText :=
  ((vga.write (line + (x * 3 + 0)) blue).write (line + (x * 3 + 1)) green).write
    (line + (x * 3 + 2)) red

/-- A line of the background. -/
def blankLine (line : Nat) : VgaText :=
  (List.range vga.width).foldl (fun t x => t.writePixel line x BLUE GREEN RED) vga

/-- `blank`, with the bytes of the picture. -/
def blank (crab : Nat → UInt8) : VgaText :=
  let t := (List.range vga.height).foldl (fun t y => t.blankLine (y * vga.pitch)) vga
  (List.range 256).foldl
    (fun t y =>
      let line := (vga.height - 256 + y) * vga.pitch + (vga.width - 256) * STRIDE
      let crabIdx := y * 256 * STRIDE + 0x36
      (List.range (256 * STRIDE)).foldl (fun t i => t.write (line + i) (crab (crabIdx + i))) t)
    t

def rows : Nat := vga.height / CHAR_HEIGHT

def cols : Nat := (vga.width - 256) / CHAR_WIDTH

/-- The part of `newline` for the end of the screen: the text goes up by a row, and the last row
is blanked. -/
def scroll : VgaText :=
  let count := vga.pitch * (vga.rows - 1) * CHAR_HEIGHT
  (List.range CHAR_HEIGHT).foldl (fun t y => t.blankLine (count + vga.pitch * y))
    (vga.copy (vga.pitch * CHAR_HEIGHT) 0 count)

def newline : VgaText :=
  let t : VgaText := { vga with row := vga.row + 1, col := 0 }
  if t.row = t.rows then { t.scroll with row := t.scroll.row - 1 } else t

/-- One line of a character: its dark pixels are drawn. -/
def writeGlyph (glyph : UInt8) (pos : Nat) : VgaText :=
  (List.range CHAR_WIDTH).foldl
    (fun t x =>
      if glyph &&& (0x80 >>> UInt8.ofNat x) ≠ 0 then
        let pos := pos + x * STRIDE
        ((t.write (pos + 0) 0).write (pos + 1) 0).write (pos + 2) 0
      else t)
    vga

def writeCp437 (b : UInt8) : VgaText :=
  let pos := vga.row * CHAR_HEIGHT * vga.pitch + vga.col * CHAR_WIDTH * STRIDE
  let t := (List.range CHAR_HEIGHT).foldl
    (fun t y => t.writeGlyph (vga.biosFont.toList.getD (b.toNat * 16 + y) 0) (pos + y * vga.pitch))
    vga
  let t : VgaText := { t with col := t.col + 1 }
  if t.col = t.cols then t.newline else t

def writeChar (c : Char) : VgaText :=
  if c = '\n' then vga.newline
  else if c.toNat < 128 then vga.writeCp437 (UInt8.ofNat c.toNat)
  else vga.writeCp437 (UInt8.ofNat '?'.toNat)

def writeStr (s : String) : VgaText := s.toList.foldl writeChar vga

end VgaText

/-- What `console_init` makes. -/
def fresh (vram : Nat → UInt8) (font : Vector UInt8 4096) (crab : Nat → UInt8)
    (width height pitch : Nat) : VgaText :=
  VgaText.blank ⟨vram, font, width, height, pitch, 0, 0, []⟩ crab

/-- The same screen, and nothing else of the video memory has been touched than its first
`height * pitch` bytes. -/
structure Within (s t : VgaText) : Prop where
  same : t = { s with vram := t.vram, touched := t.touched }
  touched : ∀ off ∈ t.touched, off ∈ s.touched ∨ off < s.height * s.pitch

theorem Within.refl (s : VgaText) : Within s s := ⟨rfl, fun _ h => .inl h⟩

/-- A loop stays within the screen if each of its turns does. -/
theorem within_foldl {α : Type} (l : List α) (f : VgaText → α → VgaText) {s t : VgaText}
    (hst : Within s t) (h : ∀ a ∈ l, ∀ u, Within s u → Within s (f u a)) :
    Within s (l.foldl f t) := by
  induction l generalizing t with
  | nil => exact hst
  | cons a l ih =>
    rw [List.foldl_cons]
    apply ih (h a List.mem_cons_self t hst)
    intro b hb
    exact h b (List.mem_cons_of_mem a hb)

theorem Within.write {s t : VgaText} (h : Within s t) {off : Nat} (b : UInt8)
    (hoff : off < s.height * s.pitch) : Within s (t.write off b) := by
  constructor
  · rw [VgaText.write, h.same]
  · intro x hx
    cases hx with
    | head => exact .inr hoff
    | tail _ hx => exact h.touched x hx

/-- A place on the screen: the line, and the offset in it. -/
theorem place_lt {y x height pitch : Nat} (hy : y < height) (hx : x < pitch) :
    y * pitch + x < height * pitch := by
  have hle : (y + 1) * pitch ≤ height * pitch := Nat.mul_le_mul_right pitch hy
  rw [Nat.succ_mul] at hle
  omega

theorem within_blankLine {s t : VgaText} {y line : Nat} (h : Within s t)
    (hpitch : 3 * s.width ≤ s.pitch) (hline : line = y * s.pitch) (hy : y < s.height) :
    Within s (t.blankLine line) := by
  have hwidth : t.width = s.width := by rw [h.same]
  apply within_foldl _ _ h
  intro x hx u hu
  rw [List.mem_range, hwidth] at hx
  have hplace : ∀ c < 3, line + (x * 3 + c) < s.height * s.pitch := by
    intro c hc
    rw [hline]
    exact place_lt hy (by omega)
  exact ((hu.write _ (hplace 0 (by omega))).write _ (hplace 1 (by omega))).write _
    (hplace 2 (by omega))

theorem within_copy {s : VgaText} {src dst count : Nat} (hsrc : src + count ≤ s.height * s.pitch)
    (hdst : dst + count ≤ s.height * s.pitch) : Within s (s.copy src dst count) := by
  constructor
  · rfl
  · intro off hoff
    simp only [VgaText.copy, List.mem_append, List.mem_range'_1] at hoff
    rcases hoff with (⟨-, hlt⟩ | ⟨-, hlt⟩) | hin
    · exact .inr (by omega)
    · exact .inr (by omega)
    · exact .inl hin

/-- The screen is large enough for the text and the picture, the cursor is within the text, and
only the screen has been touched. -/
structure Inside (size : Nat) (s : VgaText) : Prop where
  width : 264 ≤ s.width
  height : 256 ≤ s.height
  pitch : 3 * s.width ≤ s.pitch
  row : s.row < s.rows
  col : s.col < s.cols
  screen : s.height * s.pitch = size
  touched : ∀ off ∈ s.touched, off < size

variable {size : Nat}

theorem Inside.mono {s t : VgaText} (h : Inside size s) (hst : Within s t) : Inside size t := by
  have hsame := hst.same
  constructor
  · rw [hsame]
    exact h.width
  · rw [hsame]
    exact h.height
  · rw [hsame]
    exact h.pitch
  · rw [hsame]
    exact h.row
  · rw [hsame]
    exact h.col
  · rw [hsame]
    exact h.screen
  · intro off hoff
    cases hst.touched off hoff with
    | inl hin => exact h.touched off hin
    | inr hlt =>
      rw [h.screen] at hlt
      exact hlt

theorem rows_le (s : VgaText) : s.rows * 16 ≤ s.height := Nat.div_mul_le_self s.height 16

theorem cols_le (s : VgaText) : s.cols * 8 ≤ s.width - 256 := Nat.div_mul_le_self (s.width - 256) 8

theorem Inside.rows_pos {s : VgaText} (h : Inside size s) : 0 < s.rows := Nat.zero_lt_of_lt h.row

/-- Scrolling copies the lines of all rows but the first, and blanks those of the last row. -/
theorem within_scroll {s : VgaText} (hpitch : 3 * s.width ≤ s.pitch) (hrows : 0 < s.rows) :
    Within s s.scroll := by
  have hrows' := rows_le s
  have hsum : s.pitch * CHAR_HEIGHT + s.pitch * (s.rows - 1) * CHAR_HEIGHT =
      s.rows * 16 * s.pitch := by
    obtain ⟨r, hr⟩ := Nat.exists_eq_add_of_lt hrows
    rw [hr, CHAR_HEIGHT]
    simp only [Nat.zero_add, Nat.add_sub_cancel]
    ring
  have hcopy : Within s (s.copy (s.pitch * CHAR_HEIGHT) 0 (s.pitch * (s.rows - 1) * CHAR_HEIGHT)) := by
    have hle : s.rows * 16 * s.pitch ≤ s.height * s.pitch := Nat.mul_le_mul_right _ hrows'
    apply within_copy
    · omega
    · omega
  apply within_foldl _ _ hcopy
  intro y hy u hu
  rw [List.mem_range, CHAR_HEIGHT] at hy
  have hline : s.pitch * (s.rows - 1) * CHAR_HEIGHT + s.pitch * y =
      ((s.rows - 1) * 16 + y) * s.pitch := by
    rw [CHAR_HEIGHT]
    ring
  exact within_blankLine hu hpitch hline (by omega)

/-- Back from behind the last row. -/
theorem Within.rowBack {s t : VgaText} (h : Within { s with row := s.row + 1, col := 0 } t) :
    Within { s with col := 0 } { t with row := t.row - 1 } := by
  constructor
  · have hrow : t.row - 1 = s.row := by
      rw [h.same]
      rfl
    rw [hrow, h.same]
  · exact h.touched

/-- The cursor goes to the next row, or the last row becomes free. The column may be behind the
last one before. -/
theorem newline_inside {s : VgaText} (h : Inside size { s with col := 0 }) : Inside size s.newline := by
  have hrow : s.row < s.rows := h.row
  rw [VgaText.newline]
  simp only
  split
  · apply h.mono
    apply Within.rowBack
    exact within_scroll h.pitch h.rows_pos
  · rename_i hne
    have hne' : ¬ s.row + 1 = s.rows := hne
    constructor
    · exact h.width
    · exact h.height
    · exact h.pitch
    · change s.row + 1 < s.rows
      omega
    · exact h.col
    · exact h.screen
    · exact h.touched

/-- The pixels of a character lie within its row and its column. -/
theorem within_writeGlyph {s t : VgaText} {y pos : Nat} (hs : Inside size s) (h : Within s t)
    (glyph : UInt8) (hy : y < CHAR_HEIGHT)
    (hpos : pos = s.row * CHAR_HEIGHT * s.pitch + s.col * CHAR_WIDTH * STRIDE + y * s.pitch) :
    Within s (t.writeGlyph glyph pos) := by
  have hrow := hs.row
  have hcol := hs.col
  have hrows := rows_le s
  have hcols := cols_le s
  have hpitch := hs.pitch
  have hwidth := hs.width
  rw [CHAR_HEIGHT] at hy
  apply within_foldl _ _ h
  intro x hx u hu
  rw [List.mem_range, CHAR_WIDTH] at hx
  have hplace : ∀ c < 3, pos + x * STRIDE + c < s.height * s.pitch := by
    intro c hc
    have hsum : pos + x * STRIDE + c =
        (s.row * 16 + y) * s.pitch + ((s.col * 8 + x) * 3 + c) := by
      rw [hpos, CHAR_HEIGHT, CHAR_WIDTH, STRIDE]
      ring
    rw [hsum]
    exact place_lt (by omega) (by omega)
  simp only
  split
  · exact ((hu.write _ (hplace 0 (by omega))).write _ (hplace 1 (by omega))).write _
      (hplace 2 (by omega))
  · exact hu

theorem Inside.writeCp437 {s : VgaText} (h : Inside size s) (b : UInt8) : Inside size (s.writeCp437 b) := by
  have hdrawn : Within s ((List.range CHAR_HEIGHT).foldl
      (fun t y => t.writeGlyph (s.biosFont.toList.getD (b.toNat * 16 + y) 0)
        (s.row * CHAR_HEIGHT * s.pitch + s.col * CHAR_WIDTH * STRIDE + y * s.pitch)) s) := by
    apply within_foldl _ _ (Within.refl s)
    intro y hy u hu
    exact within_writeGlyph h hu _ (List.mem_range.mp hy) rfl
  rw [VgaText.writeCp437]
  generalize (List.range CHAR_HEIGHT).foldl _ s = t at hdrawn ⊢
  have ht := h.mono hdrawn
  have hcol := ht.col
  simp only
  split
  · apply newline_inside
    exact ⟨ht.width, ht.height, ht.pitch, ht.row, Nat.zero_lt_of_lt ht.col, ht.screen, ht.touched⟩
  · rename_i hne
    have hne' : ¬ t.col + 1 = t.cols := hne
    have hnext : t.col + 1 < t.cols := by omega
    exact ⟨ht.width, ht.height, ht.pitch, ht.row, hnext, ht.screen, ht.touched⟩

theorem Inside.writeChar {s : VgaText} (h : Inside size s) (c : Char) : Inside size (s.writeChar c) := by
  rw [VgaText.writeChar]
  split
  · apply newline_inside
    exact ⟨h.width, h.height, h.pitch, h.row, Nat.zero_lt_of_lt h.col, h.screen, h.touched⟩
  split
  · exact h.writeCp437 _
  · exact h.writeCp437 _

theorem Inside.chars {s : VgaText} (h : Inside size s) (cs : List Char) :
    Inside size (cs.foldl VgaText.writeChar s) := by
  induction cs generalizing s with
  | nil => exact h
  | cons c cs ih => exact ih (h.writeChar c)

theorem Inside.strings {s : VgaText} (h : Inside size s) (texts : List String) :
    Inside size (texts.foldl VgaText.writeStr s) := by
  induction texts generalizing s with
  | nil => exact h
  | cons text texts ih => exact ih (h.chars text.toList)

/-- The background and the picture are drawn within the screen. -/
theorem within_blank {s : VgaText} (crab : Nat → UInt8) (hwidth : 264 ≤ s.width)
    (hheight : 256 ≤ s.height) (hpitch : 3 * s.width ≤ s.pitch) : Within s (s.blank crab) := by
  rw [VgaText.blank]
  apply within_foldl
  · apply within_foldl _ _ (Within.refl s)
    intro y hy u hu
    exact within_blankLine hu hpitch rfl (List.mem_range.mp hy)
  · intro y hy u hu
    rw [List.mem_range] at hy
    apply within_foldl _ _ hu
    intro i hi v hv
    rw [List.mem_range, STRIDE] at hi
    apply hv.write
    rw [STRIDE, Nat.add_assoc]
    exact place_lt (by omega) (by omega)

theorem fresh_inside (vram : Nat → UInt8) (font : Vector UInt8 4096) (crab : Nat → UInt8)
    {width height pitch : Nat} (hwidth : 264 ≤ width) (hheight : 256 ≤ height)
    (hpitch : 3 * width ≤ pitch) : Inside (height * pitch) (fresh vram font crab width height pitch) := by
  have hstart : Inside (height * pitch) ⟨vram, font, width, height, pitch, 0, 0, []⟩ := by
    constructor
    · exact hwidth
    · exact hheight
    · exact hpitch
    · exact Nat.div_pos (Nat.le_trans (by decide) hheight) (by decide)
    · exact Nat.div_pos (Nat.le_sub_of_add_le hwidth) (by decide)
    · rfl
    · exact fun off hoff => absurd hoff List.not_mem_nil
  exact hstart.mono (within_blank crab hwidth hheight hpitch)

/-- After every character of whatever is written, the cursor is within the text, and all that has
been touched is the screen. -/
theorem cursor_and_vram_inside (vram : Nat → UInt8) (font : Vector UInt8 4096)
    (crab : Nat → UInt8) {width height pitch : Nat} (hwidth : 264 ≤ width)
    (hheight : 256 ≤ height) (hpitch : 3 * width ≤ pitch) (texts : List String) (text : String)
    (n : Nat) :
    let vga := (text.toList.take n).foldl VgaText.writeChar
      (texts.foldl VgaText.writeStr (fresh vram font crab width height pitch))
    vga.row < vga.rows ∧ vga.col < vga.cols ∧ ∀ off ∈ vga.touched, off < height * pitch := by
  have hinside := ((fresh_inside vram font crab hwidth hheight hpitch).strings texts).chars
    (text.toList.take n)
  exact ⟨hinside.row, hinside.col, hinside.touched⟩

/-- The smallest screen: sixteen rows of one column. -/
theorem smallest_screen_inside :
    let vga := ("a\nb".toList.take 2).foldl VgaText.writeChar
      (["c"].foldl VgaText.writeStr
        (fresh (fun _ => 0) (Vector.replicate 4096 0xff) (fun _ => 0) 264 256 792))
    vga.row < vga.rows ∧ vga.col < vga.cols ∧ ∀ off ∈ vga.touched, off < 256 * 792 :=
  cursor_and_vram_inside (fun _ => 0) (Vector.replicate 4096 0xff) (fun _ => 0) (by decide)
    (by decide) (by decide) ["c"] "a\nb" 2

end Crabos.Vga
