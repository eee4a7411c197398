/-
# Names

A program mentions a few texts (variables, functions, members, files) over and over.  A
`NameTable` numbers each distinct text once, and the rest of the library compares the numbers.

A table is kept twice, as the texts in the order of their numbers and as the numbers by their texts,
so that both directions are looked up.  It carries the proof that the two say the same, and that the
empty text comes first.

* `NameTable.intern` gives the number of a text, adding the text if it is new;
* `NameTable.tryIntern` does so as long as there are numbers left;
* `NameTable.get?` gives the number without adding anything;
* `NameTable.text` gives the text back, and the empty text for a number never handed out.

The empty text is number 0 in every table, so "has no name" can be asked of a name alone.
-/
namespace ScriptMachine

/-- A text, as its number in a `NameTable`. -/
structure Name where
  index : Nat
deriving DecidableEq, Inhabited

namespace Name

/-- The name of the empty text. -/
def empty : Name := ⟨0⟩

/-- Holds of the name of the empty text only. -/
def isEmpty (n : Name) : Bool := n.index == 0

/-- The number itself, as faults about malformed trees show it. -/
def numbered (n : Name) : String := s!"Name({n.index})"

end Name

/-- The texts named so far, in the order of their numbers, and the numbers by their texts, the newest
first.  A number is found under a text if and only if the text has that number. -/
structure NameTable where
  texts : Array String
  numbers : List (String × Nat)
  inverse : ∀ s i, numbers.lookup s = some i ↔ texts[i]? = some s
  empty : texts[0]? = some ""

/-- The refusal to name a text when this many have used up all numbers. -/
structure NamesUsedUp where
  count : Nat
deriving DecidableEq

/-- What the refusal says. -/
def NamesUsedUp.message (e : NamesUsedUp) : String :=
  s!"interner exceeded capacity: {e.count} strings, max is 4294967295"

namespace NameTable

/-- The empty text alone is found, under number 0. -/
theorem lookup_emptyText (s : String) (i : Nat) :
    [("", 0)].lookup s = some i ↔ #[""][i]? = some s := by
  rw [Array.getElem?_singleton, List.lookup_cons]
  by_cases hs : s = "" <;> grind

/-- Only the empty text has a name. -/
def initial : NameTable where
  texts := #[""]
  numbers := [("", 0)]
  inverse := lookup_emptyText
  empty := rfl

/-- How many texts have a name, the empty one included. -/
def size (t : NameTable) : Nat := t.texts.size

/-- Holds while no text but the empty one has a name. -/
def isEmpty (t : NameTable) : Bool := t.size ≤ 1

/-- The name of a text that has one.  Proofs go by `get?_eq_some_iff`, not by the search. -/
@[irreducible]
def get? (t : NameTable) (s : String) : Option Name := (t.numbers.lookup s).map Name.mk

/-- A text has a name if and only if it has that number. -/
theorem get?_eq_some_iff {t : NameTable} {s : String} {n : Name} :
    t.get? s = some n ↔ t.texts[n.index]? = some s := by
  rw [get?, ← t.inverse, Option.map_eq_some_iff]
  constructor
  · rintro ⟨i, hi, rfl⟩
    exact hi
  · intro hi
    exact ⟨n.index, hi, rfl⟩

/-- The table with one more text, which takes the next number.  A text that has a name is not added
again. -/
def add (t : NameTable) (s : String) : NameTable :=
  if h : t.get? s = none then
    { texts := t.texts.push s
      numbers := (s, t.size) :: t.numbers
      inverse := by
        intro s' i
        have hnone : t.numbers.lookup s = none := by rwa [get?, Option.map_eq_none_iff] at h
        have hold := t.inverse s' i
        rw [Array.getElem?_push, List.lookup_cons]
        by_cases hs : s' = s
        · -- no earlier number is that of the new text
          subst hs
          rw [hnone] at hold
          rw [beq_self_eq_true]
          grind [size]
        · have hlast : t.texts[t.size]? = none := Array.getElem?_eq_none (Nat.le_refl _)
          rw [beq_false_of_ne hs]
          grind [size]
      empty := by
        have hpos : 0 < t.texts.size := (Array.getElem?_eq_some_iff.1 t.empty).1
        rw [Array.getElem?_push_lt hpos, ← Array.getElem?_eq_getElem, t.empty] }
  else t

theorem texts_add {t : NameTable} {s : String} (h : t.get? s = none) :
    (t.add s).texts = t.texts.push s := by
  rw [add, dif_pos h]

/-- The name of `s`, and the table that holds it: a new text takes the next number. -/
def intern (t : NameTable) (s : String) : Name × NameTable :=
  match t.get? s with
  | some n => (n, t)
  | none => (⟨t.size⟩, t.add s)

/-- Names have 32 bits, so there are numbers for this many texts. -/
def capacity : Nat := 0x100000000

/-- The name of `s`, and the table that holds it, unless `s` is new and all numbers are used up. -/
def tryIntern (t : NameTable) (s : String) : Except NamesUsedUp Name × NameTable :=
  if (t.get? s).isSome || t.size < capacity then (.ok (t.intern s).1, (t.intern s).2)
  else (.error ⟨t.size⟩, t)

/-- The text behind a name; a number that was never handed out reads as the empty text. -/
def text (t : NameTable) (n : Name) : String := t.texts.getD n.index ""

/-- Names for a list of texts, from first to last. -/
def internAll (t : NameTable) : List String → List Name × NameTable
  | [] => ([], t)
  | s :: rest =>
    let (n, t) := t.intern s
    let (ns, t) := t.internAll rest
    (n :: ns, t)

end NameTable

end ScriptMachine
