import Mathlib.Computability.Language
import Mathlib.Data.UInt

/-!
# The regular expressions of `grep`

`match`, `matchhere` and `matchstar` of `grep.c`. A string is the list of its bytes before the
NUL, so a test for NUL is a test for the end of the list. What a pattern means is said apart
from the code: it is read into items, and items denote a language.
-/

namespace Xv6Shed.Grep

/-- `'.'` -/
def dot : UInt8 := 46

/-- `'*'` -/
def star : UInt8 := 42

/-- `'^'` -/
def caret : UInt8 := 94

/-- `'$'` -/
def dollar : UInt8 := 36

/-- `matchstar(c, re, text)`, with `matchhere(re, -)` as a function -/
def matchstar (c : UInt8) (here : List UInt8 → Bool) : List UInt8 → Bool
  | [] => here []
  | x :: text => here (x :: text) || ((x == c || c == dot) && matchstar c here text)

/-- The end of `matchhere`: one character, and `matchhere(re+1, -)` for what follows -/
def matchone (c : UInt8) (here : List UInt8 → Bool) : List UInt8 → Bool
  | [] => false
  | x :: text => (c == dot || c == x) && here text

def matchhere : List UInt8 → List UInt8 → Bool
  | [], _ => true
  | [c], text => if c = dollar then text.isEmpty else matchone c (matchhere []) text
  | c :: d :: re, text =>
    if d = star then matchstar c (matchhere re) text else matchone c (matchhere (d :: re)) text

/-- The loop of `match(re, text)` without `^`; it looks at the empty string too. -/
def matchLoop (re : List UInt8) : List UInt8 → Bool
  | [] => matchhere re []
  | x :: text => matchhere re (x :: text) || matchLoop re text

/-- `match(re, text)` -/
def matchText : List UInt8 → List UInt8 → Bool
  | [], text => matchLoop [] text
  | c :: re, text => if c = caret then matchhere re text else matchLoop (c :: re) text

inductive Item where
  /-- a character, or any character for `.` -/
  | one (c : UInt8)
  /-- zero or more of them -/
  | many (c : UInt8)
  deriving DecidableEq

/-- The items of a pattern without `^`, and whether it ends in an anchoring `$` -/
def items : List UInt8 → List Item × Bool
  | [] => ([], false)
  | [c] => if c = dollar then ([], true) else ([.one c], false)
  | c :: d :: re =>
    if d = star then ((.many c :: (items re).1), (items re).2)
    else ((.one c :: (items (d :: re)).1), (items (d :: re)).2)

/-- The words of one character that `c` stands for -/
def letter (c : UInt8) : Language UInt8 := {w | ∃ x, (c = dot ∨ c = x) ∧ w = [x]}

def Item.denotes : Item → Language UInt8
  | .one c => letter c
  | .many c => KStar.kstar (letter c)

/-- The items one after the other -/
def denotes : List Item → Language UInt8
  | [] => 1
  | i :: is => i.denotes * denotes is

/-- A pattern, read -/
structure Pattern where
  /-- it begins with `^` -/
  atStart : Bool
  items : List Item
  /-- it ends with `$` -/
  atEnd : Bool

def Pattern.read : List UInt8 → Pattern
  | [] => ⟨false, [], false⟩
  | c :: re =>
    if c = caret then ⟨true, (Grep.items re).1, (Grep.items re).2⟩
    else ⟨false, (Grep.items (c :: re)).1, (Grep.items (c :: re)).2⟩

/-- Some part of the text is denoted by the items, in the place the anchors ask for. -/
def Pattern.Matches (p : Pattern) (text : List UInt8) : Prop :=
  ∃ before part after, text = before ++ part ++ after ∧ part ∈ denotes p.items ∧
    (p.atStart = true → before = []) ∧ (p.atEnd = true → after = [])

variable {c x : UInt8} {re text : List UInt8} {here : List UInt8 → Bool} {is : List Item} {b : Bool}

/-- The text begins with a word of the items, and ends with it if the pattern ends in `$`. -/
def Begins (p : List Item × Bool) (text : List UInt8) : Prop :=
  ∃ part after, text = part ++ after ∧ part ∈ denotes p.1 ∧ (p.2 = true → after = [])

theorem begins_nil (b : Bool) : Begins ([], b) text ↔ (b = true → text = []) := by
  constructor
  · rintro ⟨part, after, rfl, hpart, hend⟩ hb
    obtain rfl : part = [] := hpart
    exact hend hb
  · intro h
    exact ⟨[], text, rfl, rfl, h⟩

theorem begins_one (is : List Item) (b : Bool) :
    Begins (.one c :: is, b) text ↔
      ∃ x rest, text = x :: rest ∧ (c = dot ∨ c = x) ∧ Begins (is, b) rest := by
  constructor
  · rintro ⟨part, after, rfl, hpart, hend⟩
    obtain ⟨w, ⟨x, hx, rfl⟩, v, hv, rfl⟩ := Language.mem_mul.mp hpart
    exact ⟨x, v ++ after, rfl, hx, v, after, rfl, hv, hend⟩
  · rintro ⟨x, rest, rfl, hx, part, after, rfl, hpart, hend⟩
    exact ⟨x :: part, after, rfl, Language.mem_mul.mpr ⟨[x], ⟨x, hx, rfl⟩, part, hpart, rfl⟩, hend⟩

theorem begins_many (is : List Item) (b : Bool) :
    Begins (.many c :: is, b) text ↔ Begins (is, b) text ∨
      ∃ x rest, text = x :: rest ∧ (c = dot ∨ c = x) ∧ Begins (.many c :: is, b) rest := by
  have hden : denotes (.many c :: is) =
      denotes is + letter c * denotes (.many c :: is) := by
    change KStar.kstar (letter c) * denotes is =
      denotes is + letter c * (KStar.kstar (letter c) * denotes is)
    conv_lhs => rw [← Language.one_add_self_mul_kstar_eq_kstar, add_mul, one_mul, mul_assoc]
  constructor
  · rintro ⟨part, after, rfl, hpart, hend⟩
    dsimp only at hpart
    rw [hden, Language.mem_add] at hpart
    rcases hpart with hpart | hpart
    · exact .inl ⟨part, after, rfl, hpart, hend⟩
    · obtain ⟨w, ⟨x, hx, rfl⟩, v, hv, rfl⟩ := Language.mem_mul.mp hpart
      exact .inr ⟨x, v ++ after, rfl, hx, v, after, rfl, hv, hend⟩
  · rintro (⟨part, after, rfl, hpart, hend⟩ | ⟨x, rest, rfl, hx, part, after, rfl, hpart, hend⟩)
    · refine ⟨part, after, rfl, ?_, hend⟩
      dsimp only
      rw [hden, Language.mem_add]
      exact .inl hpart
    · refine ⟨x :: part, after, rfl, ?_, hend⟩
      dsimp only
      rw [hden, Language.mem_add]
      exact .inr (Language.mem_mul.mpr ⟨[x], ⟨x, hx, rfl⟩, part, hpart, rfl⟩)

theorem matchstar_iff (h : ∀ text, here text = true ↔ Begins (is, b) text) (text : List UInt8) :
    matchstar c here text = true ↔ Begins (.many c :: is, b) text := by
  induction text with
  | nil =>
    rw [matchstar, h, begins_many]
    refine ⟨.inl, ?_⟩
    rintro (hb | ⟨x, rest, hx, -⟩)
    · exact hb
    · cases hx
  | cons x text ih =>
    have hmany : Begins (.many c :: is, b) (x :: text) ↔ Begins (is, b) (x :: text) ∨ _ :=
      begins_many is b
    rw [matchstar, Bool.or_eq_true, Bool.and_eq_true, h, ih, hmany]
    simp only [Bool.or_eq_true, beq_iff_eq, List.cons.injEq]
    constructor
    · rintro (hb | ⟨hx, hb⟩)
      · exact .inl hb
      · exact .inr ⟨x, text, ⟨rfl, rfl⟩, hx.symm.imp_right Eq.symm, hb⟩
    · rintro (hb | ⟨y, rest, ⟨rfl, rfl⟩, hx, hb⟩)
      · exact .inl hb
      · exact .inr ⟨hx.symm.imp_left Eq.symm, hb⟩

theorem matchone_iff (h : ∀ text, here text = true ↔ Begins (is, b) text) (text : List UInt8) :
    matchone c here text = true ↔ Begins (.one c :: is, b) text := by
  rw [begins_one]
  cases text with
  | nil => simp [matchone]
  | cons x text =>
    simp only [matchone, Bool.and_eq_true, Bool.or_eq_true, beq_iff_eq, h]
    constructor
    · rintro ⟨hx, hb⟩
      exact ⟨x, text, rfl, hx, hb⟩
    · rintro ⟨y, rest, heq, hx, hb⟩
      obtain ⟨rfl, rfl⟩ := List.cons.inj heq
      exact ⟨hx, hb⟩

theorem matchhere_iff (re text : List UInt8) :
    matchhere re text = true ↔ Begins (items re) text := by
  have hnil : ∀ text, matchhere [] text = true ↔ Begins ([], false) text := by
    intro text
    simp [matchhere, begins_nil]
  induction re using items.induct generalizing text with
  | case1 => exact hnil text
  | case2 =>
    rw [matchhere, if_pos rfl, items, if_pos rfl, begins_nil, List.isEmpty_iff]
    simp
  | case3 c hc =>
    rw [matchhere, if_neg hc, items, if_neg hc]
    exact matchone_iff hnil text
  | case4 c re ih =>
    rw [matchhere, if_pos rfl, items, if_pos rfl]
    exact matchstar_iff ih text
  | case5 c d re hd ih =>
    rw [matchhere, if_neg hd, items, if_neg hd]
    exact matchone_iff ih text

theorem matchLoop_iff (re text : List UInt8) :
    matchLoop re text = true ↔ ∃ before rest, text = before ++ rest ∧ Begins (items re) rest := by
  induction text with
  | nil =>
    rw [matchLoop, matchhere_iff]
    constructor
    · intro h
      exact ⟨[], [], rfl, h⟩
    · rintro ⟨before, rest, heq, h⟩
      obtain ⟨rfl, rfl⟩ := List.append_eq_nil_iff.mp heq.symm
      exact h
  | cons x text ih =>
    rw [matchLoop, Bool.or_eq_true, matchhere_iff, ih]
    constructor
    · rintro (h | ⟨before, rest, rfl, h⟩)
      · exact ⟨[], x :: text, rfl, h⟩
      · exact ⟨x :: before, rest, rfl, h⟩
    · rintro ⟨before, rest, heq, h⟩
      cases before with
      | nil => exact .inl (heq ▸ h)
      | cons y before =>
        obtain ⟨-, rfl⟩ := List.cons.inj heq
        exact .inr ⟨before, rest, rfl, h⟩

theorem matches_iff (b : Bool) (p : List Item × Bool) (text : List UInt8) :
    (⟨b, p.1, p.2⟩ : Pattern).Matches text ↔
      ∃ before rest, text = before ++ rest ∧ (b = true → before = []) ∧ Begins p rest := by
  constructor
  · rintro ⟨before, part, after, rfl, hpart, hb, he⟩
    exact ⟨before, part ++ after, List.append_assoc _ _ _, hb, part, after, rfl, hpart, he⟩
  · rintro ⟨before, rest, rfl, hb, part, after, rfl, hpart, he⟩
    exact ⟨before, part, after, (List.append_assoc _ _ _).symm, hpart, hb, he⟩

/-- `match(re, text)` returns 1 iff some part of the text, at the start for `^` and at the end
for `$`, is denoted by the items of the pattern. -/
theorem match_decides_language (re text : List UInt8) :
    matchText re text = true ↔ (Pattern.read re).Matches text := by
  have hloop : ∀ re, matchLoop re text = true ↔
      (⟨false, (items re).1, (items re).2⟩ : Pattern).Matches text := by
    intro re
    rw [matchLoop_iff, matches_iff]
    simp
  cases re with
  | nil => exact hloop []
  | cons c re =>
    rw [matchText, Pattern.read]
    split_ifs with hc
    · rw [matchhere_iff, matches_iff]
      constructor
      · intro h
        exact ⟨[], text, rfl, fun _ => rfl, h⟩
      · rintro ⟨before, rest, rfl, hb, h⟩
        rw [hb rfl]
        exact h
    · exact hloop (c :: re)

-- `**` repeats a literal star, a leading `*` is a literal, and `$*` repeats a literal dollar
example : Pattern.read [star, star, star] = ⟨false, [.many star, .one star], false⟩ := rfl

example : Pattern.read [caret, dollar, star, dollar] = ⟨true, [.many dollar], true⟩ := rfl

end Xv6Shed.Grep
