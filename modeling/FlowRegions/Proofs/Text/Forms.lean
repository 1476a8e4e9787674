import Mathlib.Data.List.TakeWhile
import Mathlib.Tactic.Common

/-!
Contract: bracketed forms, and that their text can be read in one way only.

A form is a word, a form with a negation sign, or a list of forms in round or square
brackets with single blanks between its items.  A word is not empty and holds no sign of
the notation, so it ends where the next sign begins.

Owns:
- `Form`, its text `Form.chars` and `Form.chars_injective`;
- the words for numbers, what the texts of joined strings are, and what they hold.
-/

namespace FlowRegions

/-! ## Words -/

/-- Whether a character is no sign of the notation: no blank, bracket or negation. -/
def isWordChar (c : Char) : Bool :=
  !([' ', '(', ')', '[', ']', '!'].contains c)

structure Word where
  chars : List Char
  nonempty : chars ≠ []
  plain : ∀ c ∈ chars, isWordChar c = true
deriving DecidableEq

namespace Word

@[ext]
theorem ext {left right : Word} (same : left.chars = right.chars) : left = right := by
  cases left
  cases right
  cases same
  rfl

theorem isWordChar_of_isDigit {c : Char} (isDigit : c.isDigit = true) : isWordChar c = true := by
  by_contra isSign
  simp only [isWordChar, Bool.not_eq_true, Bool.not_eq_false', List.contains_iff_mem,
    List.mem_cons, List.not_mem_nil, or_false] at isSign
  rcases isSign with rfl | rfl | rfl | rfl | rfl | rfl <;> cases isDigit

theorem isWordChar_of_mem_toDigits {n : Nat} {c : Char} (isDigit : c ∈ Nat.toDigits 10 n) :
    isWordChar c = true :=
  isWordChar_of_isDigit (Nat.isDigit_of_mem_toDigits (by decide) (by decide) isDigit)

def spelled (text : String) (nonempty : text.toList.isEmpty = false)
    (plain : text.toList.all isWordChar = true) : Word where
  chars := text.toList
  nonempty := List.isEmpty_eq_false_iff.mp nonempty
  plain := List.all_eq_true.mp plain

def number (n : Nat) : Word where
  chars := Nat.toDigits 10 n
  nonempty := Nat.toDigits_ne_nil
  plain _ := isWordChar_of_mem_toDigits

def marked (mark : Char) (plainMark : isWordChar mark = true) (n : Nat) : Word where
  chars := mark :: Nat.toDigits 10 n
  nonempty := List.cons_ne_nil _ _
  plain := by
    intro c member
    rcases List.mem_cons.mp member with rfl | isDigit
    · exact plainMark
    · exact isWordChar_of_mem_toDigits isDigit

theorem toDigits_injective {m n : Nat} (same : Nat.toDigits 10 m = Nat.toDigits 10 n) : m = n :=
  calc
    m = Nat.ofDigitChars 10 (Nat.toDigits 10 m) 0 := Nat.ofDigitChars_ten_toDigits.symm
    _ = Nat.ofDigitChars 10 (Nat.toDigits 10 n) 0 := by rw [same]
    _ = n := Nat.ofDigitChars_ten_toDigits

theorem number_inj {m n : Nat} : number m = number n ↔ m = n :=
  ⟨fun same => toDigits_injective (congrArg chars same), congrArg number⟩

theorem marked_inj {mark : Char} {plainMark : isWordChar mark = true} {m n : Nat} :
    marked mark plainMark m = marked mark plainMark n ↔ m = n :=
  ⟨fun same => toDigits_injective (List.cons.inj (congrArg chars same)).2, congrArg _⟩

theorem toList_toString (n : Nat) : (toString n).toList = (number n).chars := by
  rw [Nat.toString_eq_repr, Nat.toList_repr]
  rfl

theorem toList_marked {text : String} {mark : Char} (isMark : text.toList = [mark])
    (plainMark : isWordChar mark = true) (n : Nat) :
    (text ++ toString n).toList = (marked mark plainMark n).chars := by
  rw [String.toList_append, isMark, toList_toString]
  rfl

end Word

/-! ## Forms -/

inductive Bracket where
  | round
  | square
deriving DecidableEq

namespace Bracket

def opening : Bracket → Char
  | round => '('
  | square => '['

def closing : Bracket → Char
  | round => ')'
  | square => ']'

theorem opening_injective {b c : Bracket} (same : b.opening = c.opening) : b = c := by
  revert same
  cases b <;> cases c <;> decide

end Bracket

inductive Form where
  | word (word : Word)
  | negated (operand : Form)
  | group (bracket : Bracket) (items : List Form)

namespace Form

mutual

def chars : Form → List Char
  | word w => w.chars
  | negated operand => '!' :: operand.chars
  | group bracket [] => [bracket.opening, bracket.closing]
  | group bracket (first :: rest) =>
    bracket.opening :: (first.chars ++ (laterChars rest ++ [bracket.closing]))

/-- The text of the items behind the first of a list, each with a blank before it. -/
def laterChars : List Form → List Char
  | [] => []
  | item :: rest => ' ' :: (item.chars ++ laterChars rest)

end

/-! ## Reading a text in one way -/

/-- The sign that the text of a form begins with, unless it begins with a word. -/
def sign? : Form → Option Char
  | word _ => none
  | negated _ => some '!'
  | group bracket _ => some bracket.opening

def firstSign? (text : List Char) : Option Char :=
  text.head?.filter fun c => !isWordChar c

theorem firstSign?_chars (form : Form) (text : List Char) :
    firstSign? (form.chars ++ text) = form.sign? := by
  match form with
  | word w =>
      obtain ⟨c, rest, isText⟩ := List.exists_cons_of_ne_nil w.nonempty
      have isPlain := w.plain c (isText ▸ List.mem_cons_self)
      simp [chars, isText, firstSign?, sign?, isPlain]
  | negated _ => rfl
  | group bracket [] | group bracket (_ :: _) => cases bracket <;> rfl

/-- No form begins with a closing bracket. -/
theorem chars_append_ne_closing (form : Form) (bracket : Bracket) (left right : List Char) :
    form.chars ++ left ≠ bracket.closing :: right := by
  intro same
  have sameSign := congrArg firstSign? same
  rw [firstSign?_chars] at sameSign
  match form with
  | word _ | negated _ => cases bracket <;> cases sameSign
  | group other _ => cases bracket <;> cases other <;> cases sameSign

/-- A text that does not go on with a character of a word. -/
def Stops (text : List Char) : Prop :=
  ∀ c ∈ text.head?, isWordChar c = false

theorem stops_nil : Stops [] :=
  nofun

theorem stops_later (items : List Form) (bracket : Bracket) (text : List Char) :
    Stops (laterChars items ++ bracket.closing :: text) := by
  intro c isFirst
  cases items with
  | nil =>
      cases isFirst
      cases bracket <;> decide
  | cons item rest =>
      rw [laterChars] at isFirst
      cases isFirst
      decide

/-- A word is all of a text up to where it stops. -/
theorem takeWhile_word (w : Word) {text : List Char} (stops : Stops text) :
    (w.chars ++ text).takeWhile isWordChar = w.chars := by
  rw [List.takeWhile_append_of_pos w.plain]
  cases text with
  | nil => simp
  | cons c rest => simp [stops c rfl]

mutual

/-- A text that begins with a form and then stops does so with one form only. -/
theorem chars_append_inj (form other : Form) {text text' : List Char} (stops : Stops text)
    (stops' : Stops text') (same : form.chars ++ text = other.chars ++ text') :
    form = other ∧ text = text' := by
  have sameSign : form.sign? = other.sign? := by
    rw [← firstSign?_chars form text, same, firstSign?_chars]
  match form, other with
  | word w, word w' =>
      have sameWord : w.chars = w'.chars := by
        rw [chars, chars] at same
        rw [← takeWhile_word w stops, same, takeWhile_word w' stops']
      rw [chars, chars, sameWord] at same
      exact ⟨congrArg word (Word.ext sameWord), List.append_cancel_left same⟩
  | negated operand, negated operand' =>
      rw [chars, chars] at same
      obtain ⟨rfl, rest⟩ :=
        chars_append_inj operand operand' stops stops' (List.cons.inj same).2
      exact ⟨rfl, rest⟩
  | group bracket items, group bracket' items' =>
      obtain rfl := Bracket.opening_injective (Option.some.inj sameSign)
      match items, items' with
      | [], [] =>
          rw [chars] at same
          exact ⟨rfl, (List.cons.inj (List.cons.inj same).2).2⟩
      | first :: rest, first' :: rest' =>
          simp only [chars, List.cons_append, List.append_assoc, List.nil_append] at same
          obtain ⟨rfl, sameRest⟩ := chars_append_inj first first' (stops_later rest bracket text)
            (stops_later rest' bracket text') (List.cons.inj same).2
          obtain ⟨rfl, rfl⟩ := laterChars_append_inj rest rest' bracket sameRest
          exact ⟨rfl, rfl⟩
      | [], first :: rest =>
          simp only [chars, List.cons_append, List.append_assoc] at same
          exact absurd (List.cons.inj same).2.symm (chars_append_ne_closing _ _ _ _)
      | first :: rest, [] =>
          simp only [chars, List.cons_append, List.append_assoc] at same
          exact absurd (List.cons.inj same).2 (chars_append_ne_closing _ _ _ _)
  | word _, negated _ | word _, group _ _ | negated _, word _ | group _ _, word _ =>
      cases sameSign
  | negated _, group bracket _ | group bracket _, negated _ =>
      cases bracket <;> cases sameSign

/-- So does a text that begins with the later items of a list and its closing bracket. -/
theorem laterChars_append_inj (items others : List Form) (bracket : Bracket)
    {text text' : List Char}
    (same : laterChars items ++ bracket.closing :: text =
      laterChars others ++ bracket.closing :: text') :
    items = others ∧ text = text' := by
  match items, others with
  | [], [] => exact ⟨rfl, (List.cons.inj same).2⟩
  | [], _ :: _ | _ :: _, [] =>
      rw [laterChars, laterChars] at same
      cases bracket <;> cases (List.cons.inj same).1
  | item :: rest, item' :: rest' =>
      rw [laterChars, laterChars, List.cons_append, List.cons_append, List.append_assoc,
        List.append_assoc] at same
      obtain ⟨rfl, sameRest⟩ := chars_append_inj item item' (stops_later rest bracket text)
        (stops_later rest' bracket text') (List.cons.inj same).2
      obtain ⟨rfl, rfl⟩ := laterChars_append_inj rest rest' bracket sameRest
      exact ⟨rfl, rfl⟩

end

/-- Different forms have different texts. -/
theorem chars_injective {form other : Form} (same : form.chars = other.chars) : form = other :=
  (chars_append_inj form other stops_nil stops_nil (by rw [same])).1

/-! ## Texts that are put together -/

theorem intercalate_chars (first : Form) (rest : List Form) :
    [' '].intercalate ((first :: rest).map chars) = first.chars ++ laterChars rest := by
  induction rest generalizing first with
  | nil => simp [laterChars]
  | cons second rest inductionHypothesis =>
      rw [List.map_cons, List.map_cons, List.intercalate_cons_cons, ← List.map_cons,
        inductionHypothesis, laterChars]
      simp

/-- The text of a list in brackets joins the texts of its items. -/
theorem chars_group (bracket : Bracket) (items : List Form) :
    (group bracket items).chars =
      bracket.opening :: ([' '].intercalate (items.map chars) ++ [bracket.closing]) := by
  cases items with
  | nil => simp [chars]
  | cons first rest =>
      rw [intercalate_chars, chars, List.append_assoc]

/-- So does the string that is put together in the same way. -/
theorem toList_joined {bracket : Bracket} {opening closing : String} {texts : List String}
    {items : List Form} (opens : opening.toList = [bracket.opening])
    (closes : closing.toList = [bracket.closing])
    (same : texts.map String.toList = items.map chars) :
    (opening ++ " ".intercalate texts ++ closing).toList = (group bracket items).chars := by
  rw [String.toList_append, String.toList_append, String.toList_intercalate, chars_group, opens,
    closes, same]
  rfl

/-! ## What texts hold -/

theorem exists_item_of_mem_laterChars {items : List Form} {c : Char} (notBlank : c ≠ ' ')
    (member : c ∈ laterChars items) : ∃ item ∈ items, c ∈ item.chars := by
  induction items with
  | nil => cases member
  | cons item rest inductionHypothesis =>
      rw [laterChars, List.mem_cons, List.mem_append] at member
      rcases member with isBlank | here | there
      · exact absurd isBlank notBlank
      · exact ⟨item, List.mem_cons_self, here⟩
      · obtain ⟨found, isItem, holds⟩ := inductionHypothesis there
        exact ⟨found, List.mem_cons_of_mem _ isItem, holds⟩

/-- What the text of a list in brackets holds, besides the signs of the notation, one of its
items holds. -/
theorem exists_item_of_mem_chars {bracket : Bracket} {items : List Form} {c : Char}
    (isPlain : isWordChar c = true) (member : c ∈ (group bracket items).chars) :
    ∃ item ∈ items, c ∈ item.chars := by
  have notSign {sign : Char} (isSign : isWordChar sign = false) : c ≠ sign := by
    rintro rfl
    exact Bool.false_ne_true (isSign.symm.trans isPlain)
  have notOpening : c ≠ bracket.opening := notSign (by cases bracket <;> rfl)
  have notClosing : c ≠ bracket.closing := notSign (by cases bracket <;> rfl)
  cases items with
  | nil => simp [chars, notOpening, notClosing] at member
  | cons first rest =>
      simp only [chars, List.mem_cons, notOpening, List.mem_append, notClosing,
        List.not_mem_nil, or_false, false_or] at member
      rcases member with here | there
      · exact ⟨first, List.mem_cons_self, here⟩
      · obtain ⟨found, isItem, holds⟩ := exists_item_of_mem_laterChars (notSign rfl) there
        exact ⟨found, List.mem_cons_of_mem _ isItem, holds⟩

end Form

end FlowRegions
