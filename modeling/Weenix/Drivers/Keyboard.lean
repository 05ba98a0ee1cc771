/-
# The keyboard (`drivers/tty/keyboard.c`)

The interrupt handler gets the keyboard's codes one by one.  What it keeps between two of them are
the three bits of `curmask`; what it does is to pass a character on, to switch to another terminal,
or to scroll.

For every stream of codes the tables are read inside their bounds, and a modifier is on if its last
code was that of a press (`keyboard_modifiers`).  The third bit is never set: the handler clears the
top bit of a code before it compares it with `ESC0` and `ESC1`, which have that bit.  So an escaped
key is taken for the plain key, and not ignored as the comment in the source says
(`escape_codes_without_effect`).
-/
import Mathlib.Data.List.Basic
import Weenix.Kernel

namespace Weenix.Keyboard

/-! ## 1. The handler -/

/-- The bits of `curmask`: `SHIFT_MASK`, `CTRL_MASK` and `ESC_MASK`. -/
structure Curmask where
  shift : Bool
  ctrl : Bool
  esc : Bool

/-- The calls of `keyboard_handler`, `vt_switch` and `vt_scroll`. -/
inductive KeyEvent where
  | char (c : Nat)
  | vtSwitch (term : Nat)
  | vtScroll (up : Bool)

def breakMask : UInt8 := 0x80

def noChar : Nat := 0xff

def normalScancodes : List Nat :=
  "\x00\x1b1234567890-=\x08\tqwertyuiop[]\n\x00asdfghjkl;'`\x00\\zxcvbnm,./\x00\x00\x00 ".toList.map
    Char.toNat

def shiftScancodes : List Nat :=
  "\x00\x1b!@#$%^&*()_+\x08\tQWERTYUIOP\x7b\x7d\n\x00ASDFGHJKL:\"~\x00|ZXCVBNM<>?\x00\x00\x00 ".toList.map Char.toNat

def isShift (sc : UInt8) : Bool := sc = 0x2a || sc = 0x36

def isCtrl (sc : UInt8) : Bool := sc = 0x1d

def readTable (table : List Nat) (sc : UInt8) : Except Halt Nat :=
  match table[sc.toNat]? with
  | some c => .ok c
  | none => .error .wild

/-- The branches that leave `curmask` alone. -/
def keyEvent (curmask : Curmask) (sc : UInt8) : Except Halt (Option KeyEvent) :=
  if 0x3b ≤ sc ∧ sc ≤ 0x44 then .ok (some (.vtSwitch (sc - 0x3b).toNat))
  else if curmask.ctrl ∧ sc = 0x1c then .ok (some (.vtScroll false))
  else if curmask.ctrl ∧ sc = 0x0e then .ok (some (.vtScroll true))
  else if 0x39 < sc then .ok none
  else if curmask.ctrl then do
    let c ← readTable shiftScancodes sc
    return if 0x40 ≤ c ∧ c < 0x60 then some (.char (c - 0x40)) else none
  else do
    let c ← readTable (if curmask.shift then shiftScancodes else normalScancodes) sc
    return if c = noChar then none else some (.char c)

def keyboardIntrHandler (curmask : Curmask) (code : UInt8) :
    Except Halt (Curmask × Option KeyEvent) :=
  let breakCode := code &&& breakMask
  let sc := code &&& ~~~breakMask
  if breakCode ≠ 0 then
    if isShift sc then .ok ({ curmask with shift := false }, none)
    else if isCtrl sc then .ok ({ curmask with ctrl := false }, none)
    else .ok (curmask, none)
  else if isShift sc then .ok ({ curmask with shift := true }, none)
  else if isCtrl sc then .ok ({ curmask with ctrl := true }, none)
  else if curmask.esc then .ok ({ curmask with esc := false }, none)
  else if sc = 0xe0 ∨ sc = 0xe1 then .ok ({ curmask with esc := true }, none)
  else (curmask, ·) <$> keyEvent curmask sc

/-- The codes in the order in which they arrive. -/
def keys (curmask : Curmask) : List UInt8 → Except Halt (Curmask × List KeyEvent)
  | [] => .ok (curmask, [])
  | code :: codes => do
    let (curmask, event) ← keyboardIntrHandler curmask code
    let (curmask, events) ← keys curmask codes
    return (curmask, event.toList ++ events)

/-! ## 2. Modifiers -/

/-- The last code of the key is that of a press, or there is none and the key was `on`. -/
def pressed (key : UInt8 → Bool) (on : Bool) (codes : List UInt8) : Bool :=
  (codes.filter fun code => key (code &&& ~~~breakMask)).getLast?.elim on fun code =>
    code &&& breakMask = 0

theorem pressed_cons (key : UInt8 → Bool) (on : Bool) (code : UInt8) (codes : List UInt8) :
    pressed key on (code :: codes) = pressed key (pressed key on [code]) codes := by
  cases hkey : key (code &&& ~~~breakMask) with
  | true =>
    simp only [pressed, List.filter_cons, hkey, if_true, List.getLast?_cons]
    cases (codes.filter fun code => key (code &&& ~~~breakMask)).getLast? <;> rfl
  | false => simp [pressed, hkey]

theorem keyEvent_ok (curmask : Curmask) (sc : UInt8) :
    ∃ event, keyEvent curmask sc = .ok event := by
  unfold keyEvent
  have hread : ∀ (table : List Nat) (f : Nat → Option KeyEvent), table.length = 58 → ¬ 0x39 < sc →
      ∃ event, (do let c ← readTable table sc; return f c) = Except.ok event := by
    intro table f hlen hsc
    have hle : sc.toNat ≤ 0x39 := UInt8.le_iff_toNat_le.mp (UInt8.not_lt.mp hsc)
    rw [readTable, List.getElem?_eq_getElem (by omega)]
    exact ⟨_, rfl⟩
  split_ifs with _ _ _ hsc
  case pos | pos | pos | pos => exact ⟨_, rfl⟩
  all_goals exact hread _ _ (by decide) hsc

/-- A code without its break bit is neither `ESC0` nor `ESC1`. -/
theorem not_escape (code : UInt8) :
    ¬ (code &&& ~~~breakMask = 0xe0 ∨ code &&& ~~~breakMask = 0xe1) := by
  have hle : (code &&& ~~~breakMask).toNat ≤ 0x7f := by
    rw [UInt8.toNat_and]
    exact Nat.and_le_right
  rintro (h | h)
  all_goals
    rw [h] at hle
    contradiction

/-- **One code** sets or clears the modifier that it is about, and an escape is not pending
after it. -/
theorem keyboardIntrHandler_spec (shift ctrl : Bool) (code : UInt8) : ∃ event,
    keyboardIntrHandler ⟨shift, ctrl, false⟩ code
      = .ok (⟨pressed isShift shift [code], pressed isCtrl ctrl [code], false⟩, event) := by
  obtain ⟨event, hevent⟩ := keyEvent_ok ⟨shift, ctrl, false⟩ (code &&& ~~~breakMask)
  have hesc := not_escape code
  rw [keyboardIntrHandler]
  unfold pressed
  dsimp only
  rw [if_neg hesc, hevent, List.filter_singleton, List.filter_singleton]
  generalize code &&& ~~~breakMask = sc
  have hne : isShift sc = true → isCtrl sc = false := by
    simp only [isShift, isCtrl]
    grind
  by_cases hbreak : code &&& breakMask = 0 <;> by_cases hshift : isShift sc = true <;>
    by_cases hctrl : isCtrl sc = true <;> simp_all

/-- **Modifiers follow their keys.**  For every stream of codes the handler returns each time,
shift and ctrl are on exactly if the last code of such a key was that of a press, and an escape is
never pending. -/
theorem keyboard_modifiers (shift ctrl : Bool) (codes : List UInt8) : ∃ events,
    keys ⟨shift, ctrl, false⟩ codes
      = .ok (⟨pressed isShift shift codes, pressed isCtrl ctrl codes, false⟩, events) := by
  induction codes generalizing shift ctrl with
  | nil => exact ⟨[], rfl⟩
  | cons code codes ih =>
    obtain ⟨event, hstep⟩ := keyboardIntrHandler_spec shift ctrl code
    obtain ⟨events, hrun⟩ := ih (pressed isShift shift [code]) (pressed isCtrl ctrl [code])
    refine ⟨event.toList ++ events, ?_⟩
    rw [← pressed_cons, ← pressed_cons] at hrun
    rw [keys, hstep]
    change (keys _ codes >>= _) = _
    rw [hrun]
    rfl

/-- **Escape codes have no effect.**  Without them the handler does the same. -/
theorem escape_codes_without_effect (curmask : Curmask) (codes : List UInt8) :
    keys curmask (codes.filter fun code => code ≠ 0xe0 ∧ code ≠ 0xe1) = keys curmask codes := by
  induction codes generalizing curmask with
  | nil => rfl
  | cons code codes ih =>
    by_cases hcode : code ≠ 0xe0 ∧ code ≠ 0xe1
    · rw [List.filter_cons_of_pos (by simpa using hcode), keys, keys]
      simp only [ih]
    · have hskip : keyboardIntrHandler curmask code = .ok (curmask, none) := by
        rcases not_and_or.mp hcode with h | h <;> rw [not_not.mp h] <;> rfl
      rw [List.filter_cons_of_neg (by simpa using hcode), ih, keys, hskip]
      change _ = (keys curmask codes >>= _)
      cases keys curmask codes <;> rfl

end Weenix.Keyboard
