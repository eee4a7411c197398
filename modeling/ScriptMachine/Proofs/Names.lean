/-
# Names stand for their texts

Everything else compares names where it means texts: scopes, methods, members, modules.  That is
right only if two names are equal exactly when their texts are, and if it stays so whatever is named
later.  A table carries the proof that its two halves agree, so what is left to show is about time:
nothing is ever taken out or renumbered, and nothing gets in but by being named.

* `NameTable.getElem?_intern`, `NameTable.get?_intern`: one text is named;
* `NameTable.Call`, `NameTable.call`, `NameTable.ofCalls`: what can be asked of a table, and the
  table after a history of calls;
* `NameTable.tryIntern_cases`: what one naming can come to;
* `NameTable.getElem?_callAll`: what is in a table stays there;
* `NameTable.get?_ofCalls_iff`: and what is in a table was named;
* `NameTable.ofCalls_faithful`: all that follows, for every history that leaves numbers unused.
-/
import Mathlib.Data.List.Induction
import ScriptMachine.Name

namespace ScriptMachine

namespace NameTable

variable {names t : NameTable} {s s' text : String} {name n n' : Name} {i : Nat}

/-! ## 1. Naming a text -/

/-- A text that has a name keeps it. -/
theorem getElem?_texts_intern (names : NameTable) (s : String) {i : Nat} {text : String}
    (h : names.texts[i]? = some text) : (names.intern s).2.texts[i]? = some text := by
  unfold intern
  split
  · exact h
  · next hnew =>
    rw [texts_add hnew, Array.getElem?_push_lt (Array.getElem?_eq_some_iff.1 h).1,
      ← Array.getElem?_eq_getElem, h]

/-- The name of a text leads back to it. -/
theorem getElem?_intern (names : NameTable) (s : String) :
    (names.intern s).2.texts[(names.intern s).1.index]? = some s := by
  unfold intern
  split
  · next n hn => exact get?_eq_some_iff.1 hn
  · next hnew => simp [texts_add hnew, size]

/-- A text has the same name after another one was named. -/
theorem get?_intern (s : String) (h : names.get? text = some name) :
    (names.intern s).2.get? text = some name :=
  get?_eq_some_iff.2 (names.getElem?_texts_intern s (get?_eq_some_iff.1 h))

/-- A text that was named has that name. -/
theorem get?_intern_self (names : NameTable) (s : String) :
    (names.intern s).2.get? s = some (names.intern s).1 :=
  get?_eq_some_iff.2 (names.getElem?_intern s)

/-- Naming a text again changes nothing. -/
theorem intern_of_get? (h : names.get? s = some name) : names.intern s = (name, names) := by
  unfold intern
  split
  · next n hn => rw [Option.some.inj (hn.symm.trans h)]
  · next hnone => simp [hnone] at h

/-- The empty name is that of the empty text only. -/
theorem isEmpty_eq_false (h : names.texts[n.index]? = some s) (hs : s ≠ "") : n.isEmpty = false := by
  rw [Name.isEmpty, beq_eq_false_iff_ne]
  intro hzero
  rw [hzero, names.empty] at h
  exact hs (Option.some.inj h).symm

/-- A new text takes the next number. -/
theorem intern_of_new (h : names.get? s = none) : names.intern s = (⟨names.size⟩, names.add s) := by
  unfold intern
  split
  · next n hn => simp [hn] at h
  · rfl

/-! ## 2. Histories -/

/-- What can be asked of a table of names. -/
inductive Call where
  | intern (s : String)
  | get (s : String)
  | lookup (n : Name)
deriving DecidableEq

/-- The table after a call.  Only naming a text can change it. -/
def call (t : NameTable) : Call → NameTable
  | .intern s => (t.tryIntern s).2
  | .get _ | .lookup _ => t

/-- The table after calls, first to last. -/
def callAll (t : NameTable) (calls : List Call) : NameTable := calls.foldl call t

/-- The table after a history of calls. -/
def ofCalls (calls : List Call) : NameTable := initial.callAll calls

/-- At some moment of a history the text `s` was named, and the answer was `n`. -/
def Issued (calls : List Call) (s : String) (n : Name) : Prop :=
  ∃ earlier later, calls = earlier ++ .intern s :: later ∧
    ((ofCalls earlier).tryIntern s).1 = .ok n

theorem ofCalls_append (calls calls' : List Call) :
    ofCalls (calls ++ calls') = (ofCalls calls).callAll calls' :=
  List.foldl_append

theorem ofCalls_concat (calls : List Call) (c : Call) :
    ofCalls (calls ++ [c]) = (ofCalls calls).call c :=
  ofCalls_append calls [c]

theorem Issued.append {calls : List Call} (h : Issued calls s n) (later : List Call) :
    Issued (calls ++ later) s n := by
  obtain ⟨earlier, between, rfl, hn⟩ := h
  exact ⟨earlier, between ++ later, by simp, hn⟩

/-! ## 3. One call -/

/-- **What one naming can come to**: the name that the text has, the next number, or a refusal. -/
theorem tryIntern_cases (t : NameTable) (s : String) :
    (∃ n, t.get? s = some n ∧ t.tryIntern s = (.ok n, t)) ∨
    (t.get? s = none ∧ t.size < capacity ∧ t.tryIntern s = (.ok ⟨t.size⟩, t.add s)) ∨
    (t.get? s = none ∧ capacity ≤ t.size ∧ t.tryIntern s = (.error ⟨t.size⟩, t)) := by
  unfold tryIntern
  cases hget : t.get? s with
  | some n =>
    refine .inl ⟨n, rfl, ?_⟩
    rw [intern_of_get? hget]
    rfl
  | none =>
    rw [intern_of_new hget]
    by_cases hroom : t.size < capacity
    · exact .inr (.inl ⟨rfl, hroom, by simp [hroom]⟩)
    · exact .inr (.inr ⟨rfl, by omega, by simp [hroom]⟩)

/-- As long as there are numbers left, no text is refused. -/
theorem exists_tryIntern (hroom : t.size < capacity) (s : String) :
    ∃ n, (t.tryIntern s).1 = .ok n := by
  rcases t.tryIntern_cases s with ⟨n, -, htry⟩ | ⟨-, -, htry⟩ | ⟨-, hfull, -⟩
  · exact ⟨n, by rw [htry]⟩
  · exact ⟨_, by rw [htry]⟩
  · omega

/-- The answer to a naming is the name that the text has from then on. -/
theorem get?_of_tryIntern (h : (t.tryIntern s).1 = .ok n) :
    (t.call (.intern s)).get? s = some n := by
  rw [call]
  rcases t.tryIntern_cases s with ⟨n', hget, htry⟩ | ⟨hnew, -, htry⟩ | ⟨-, -, htry⟩
  · rw [htry] at h ⊢
    rw [hget, Except.ok.inj h]
  · rw [htry] at h ⊢
    rw [get?_eq_some_iff, texts_add hnew, ← Except.ok.inj h]
    simp [size]
  · rw [htry] at h
    cases h

/-- **One call** keeps every text in its place. -/
theorem getElem?_call (c : Call) (h : t.texts[i]? = some text) :
    (t.call c).texts[i]? = some text := by
  cases c with
  | intern s =>
    rw [call]
    rcases t.tryIntern_cases s with ⟨n, -, htry⟩ | ⟨hnew, -, htry⟩ | ⟨-, -, htry⟩
    · rwa [htry]
    · have hkept := t.getElem?_texts_intern s h
      rw [intern_of_new hnew] at hkept
      rwa [htry]
    · rwa [htry]
  | get s => exact h
  | lookup n => exact h

/-- **One call** gives a name to no text but the one that it names. -/
theorem get?_of_call {c : Call} (h : (t.call c).get? s = some n) :
    t.get? s = some n ∨ c = .intern s ∧ (t.tryIntern s).1 = .ok n := by
  cases c with
  | intern s' =>
    rw [call] at h
    rcases t.tryIntern_cases s' with ⟨n', -, htry⟩ | ⟨hnew, -, htry⟩ | ⟨-, -, htry⟩
    · rw [htry] at h
      exact .inl h
    · rw [htry, get?_eq_some_iff, texts_add hnew, Array.getElem?_push] at h
      split at h
      · next hlast =>
        obtain rfl := Option.some.inj h
        refine .inr ⟨rfl, ?_⟩
        rw [htry, size, ← hlast]
      · exact .inl (get?_eq_some_iff.2 h)
    · rw [htry] at h
      exact .inl h
  | get s' => exact .inl h
  | lookup n' => exact .inl h

/-! ## 4. All calls of a history -/

/-- **Any number of calls** keep every text in its place. -/
theorem getElem?_callAll (calls : List Call) (h : t.texts[i]? = some text) :
    (t.callAll calls).texts[i]? = some text := by
  induction calls generalizing t with
  | nil => exact h
  | cons c rest ih => exact ih (getElem?_call c h)

/-- A text that has a name keeps it over any number of calls. -/
theorem get?_callAll (calls : List Call) (h : t.get? s = some n) :
    (t.callAll calls).get? s = some n :=
  get?_eq_some_iff.2 (getElem?_callAll calls (get?_eq_some_iff.1 h))

/-- Tables do not shrink: a number beyond the end would have a text that is gone. -/
theorem size_le_callAll (t : NameTable) (calls : List Call) : t.size ≤ (t.callAll calls).size := by
  by_contra hless
  have hlt : (t.callAll calls).size < t.texts.size := by
    simpa [size] using hless
  have hkept := getElem?_callAll calls (Array.getElem?_eq_getElem hlt)
  simp [size] at hkept

theorem text_of_getElem? (h : t.texts[n.index]? = some s) : t.text n = s := by
  rw [text, Array.getD_eq_getD_getElem?, h, Option.getD_some]

/-- To begin with, only the empty text has a name. -/
theorem get?_initial_iff : initial.get? s = some n ↔ s = "" ∧ n = .empty := by
  obtain ⟨i⟩ := n
  rw [get?_eq_some_iff, Name.empty, Name.mk.injEq]
  simp only [initial, Array.getElem?_singleton]
  grind

/-- The name that was the answer at some moment is the name of the text at the end. -/
theorem Issued.get? {calls : List Call} (h : Issued calls s n) :
    (ofCalls calls).get? s = some n := by
  obtain ⟨earlier, later, rfl, hn⟩ := h
  rw [ofCalls_append]
  exact get?_callAll later (get?_of_tryIntern hn)

/-- **Names come from naming.**  The texts that have names after a history are the empty text and
those that were named, and the names are those that were the answers. -/
theorem get?_ofCalls_iff (calls : List Call) :
    (ofCalls calls).get? s = some n ↔ Issued calls s n ∨ s = "" ∧ n = .empty := by
  constructor
  · intro h
    induction calls using List.reverseRecOn with
    | nil => exact .inr (get?_initial_iff.1 h)
    | append_singleton calls c ih =>
      rw [ofCalls_concat] at h
      rcases get?_of_call h with hold | ⟨rfl, hn⟩
      · exact (ih hold).imp_left fun hissued => hissued.append [c]
      · exact .inl ⟨calls, [], rfl, hn⟩
  · rintro (hissued | hempty)
    · exact hissued.get?
    · exact get?_callAll calls (get?_initial_iff.2 hempty)

/-- Unless numbers ran out, a name was issued for a text if and only if it was named. -/
theorem exists_issued_iff {calls : List Call} (hroom : (ofCalls calls).size < capacity) :
    (∃ n, Issued calls s n) ↔ .intern s ∈ calls := by
  constructor
  · rintro ⟨n, earlier, later, rfl, -⟩
    simp
  · intro hmem
    obtain ⟨earlier, later, rfl⟩ := List.append_of_mem hmem
    have hle := (ofCalls earlier).size_le_callAll (.intern s :: later)
    rw [← ofCalls_append] at hle
    have hbefore : (ofCalls earlier).size < capacity := by omega
    obtain ⟨n, hn⟩ := exists_tryIntern hbefore s
    exact ⟨n, earlier, later, rfl, hn⟩

/-- The table grows by one if the text has no name yet, and else not at all. -/
theorem size_call_intern (hroom : t.size < capacity) (s : String) :
    (t.call (.intern s)).size = t.size + if (t.get? s).isSome then 0 else 1 := by
  rw [call]
  rcases t.tryIntern_cases s with ⟨n, hget, htry⟩ | ⟨hnew, -, htry⟩ | ⟨-, hfull, -⟩
  · simp [htry, hget]
  · rw [htry, size, texts_add hnew, Array.size_push, hnew]
    rfl
  · omega

/-! ## 5. Names and texts -/

/-- What a table of names has to do with the history of calls behind it. -/
structure Faithful (calls : List Call) : Prop where
  /-- The numbers by their texts and the texts by their numbers are inverse to each other. -/
  inverse : ∀ s i, (ofCalls calls).numbers.lookup s = some i ↔ (ofCalls calls).texts[i]? = some s
  /-- No text was refused. -/
  accepted : ∀ earlier s later, calls = earlier ++ .intern s :: later →
    ∃ n, ((ofCalls earlier).tryIntern s).1 = .ok n
  /-- Whenever two texts were named, they got the same name if and only if they are the same. -/
  injective : ∀ s s' n n', Issued calls s n → Issued calls s' n' → (n = n' ↔ s = s')
  /-- A name leads back to the text for which it was issued. -/
  text_issued : ∀ s n, Issued calls s n → (ofCalls calls).text n = s
  /-- A text is found if and only if it was named or is empty, and under the name that it got. -/
  found : ∀ s n, (ofCalls calls).get? s = some n ↔ Issued calls s n ∨ s = "" ∧ n = .empty
  /-- The empty text is number 0, also when it is named. -/
  empty : (ofCalls calls).get? "" = some .empty ∧ ∀ n, Issued calls "" n → n = .empty
  /-- Looking something up changes nothing. -/
  unchanged : ∀ s n, ofCalls (calls ++ [.get s]) = ofCalls calls ∧
    ofCalls (calls ++ [.lookup n]) = ofCalls calls
  /-- The table grows by one when a text is named for the first time, and at no other moment. -/
  size_concat : ∀ earlier s later, calls = earlier ++ .intern s :: later →
    (ofCalls (earlier ++ [.intern s])).size =
      (ofCalls earlier).size + if s = "" ∨ .intern s ∈ earlier then 0 else 1
  /-- The text of a number that was handed out at some moment is the same at the end. -/
  text_stable : ∀ earlier later, calls = earlier ++ later → ∀ n : Name,
    n.index < (ofCalls earlier).size → (ofCalls calls).text n = (ofCalls earlier).text n

/-- **Names stand for their texts** over every history of calls that leaves the table with fewer
than 2^32 texts.  The two halves of the table are inverse to each other; two texts get the same name
if and only if they are the same, however far apart they are named; a name leads back to its text,
and to the same text for ever; only what was named is found, and only naming a new text makes the
table grow. -/
theorem ofCalls_faithful (calls : List Call) (hroom : (ofCalls calls).size < capacity) :
    Faithful calls := by
  -- a table in between is no larger than the last one
  have hbefore : ∀ earlier later, calls = earlier ++ later → (ofCalls earlier).size < capacity := by
    rintro earlier later rfl
    have hle := (ofCalls earlier).size_le_callAll later
    rw [← ofCalls_append] at hle
    omega
  have hzero : (ofCalls calls).get? "" = some .empty := (get?_ofCalls_iff calls).2 (.inr ⟨rfl, rfl⟩)
  exact {
    inverse := (ofCalls calls).inverse
    accepted := fun earlier s later hcalls => exists_tryIntern (hbefore earlier _ hcalls) s
    injective := by
      intro s s' n n' hs hs'
      have htext := get?_eq_some_iff.1 hs.get?
      have htext' := get?_eq_some_iff.1 hs'.get?
      constructor
      · rintro rfl
        exact Option.some.inj (htext.symm.trans htext')
      · rintro rfl
        exact Option.some.inj (hs.get?.symm.trans hs'.get?)
    text_issued := fun s n hs => text_of_getElem? (get?_eq_some_iff.1 hs.get?)
    found := fun s n => get?_ofCalls_iff calls
    empty := ⟨hzero, fun n hn => Option.some.inj (hn.get?.symm.trans hzero)⟩
    unchanged := fun s n => ⟨ofCalls_concat calls (.get s), ofCalls_concat calls (.lookup n)⟩
    size_concat := by
      intro earlier s later hcalls
      have hlt := hbefore earlier _ hcalls
      rw [ofCalls_concat, size_call_intern hlt]
      congr 2
      rw [Option.isSome_iff_exists, ← exists_issued_iff hlt, eq_iff_iff]
      simp only [get?_ofCalls_iff]
      grind
    text_stable := by
      rintro earlier later rfl n hn
      have htext := Array.getElem?_eq_getElem (show n.index < (ofCalls earlier).texts.size from hn)
      rw [ofCalls_append, text_of_getElem? (getElem?_callAll later htext), text_of_getElem? htext] }

/-- Two texts, one of them named twice, with questions in between. -/
def twoTexts : List Call :=
  [.intern "left", .get "right", .intern "right", .intern "left", .lookup ⟨1⟩]

/-- The text that is named again has its first name, another one was not found before it was named,
and both names lead back. -/
theorem ofCalls_faithful_twoTexts :
    (ofCalls twoTexts).size < capacity ∧ Issued twoTexts "left" ⟨1⟩ ∧ Issued twoTexts "right" ⟨2⟩ ∧
      (ofCalls twoTexts).text ⟨1⟩ = "left" ∧ (ofCalls twoTexts).text ⟨2⟩ = "right" ∧
      (ofCalls (twoTexts.take 3 ++ [.intern "left"])).size = (ofCalls (twoTexts.take 3)).size := by
  have hroom : (ofCalls twoTexts).size < capacity := by decide +kernel
  have hleft : Issued twoTexts "left" ⟨1⟩ :=
    ⟨twoTexts.take 3, [.lookup ⟨1⟩], rfl, by decide +kernel⟩
  have hright : Issued twoTexts "right" ⟨2⟩ :=
    ⟨twoTexts.take 2, twoTexts.drop 3, rfl, by decide +kernel⟩
  have hfaithful := ofCalls_faithful twoTexts hroom
  exact ⟨hroom, hleft, hright, hfaithful.text_issued _ _ hleft, hfaithful.text_issued _ _ hright,
    hfaithful.size_concat (twoTexts.take 3) "left" [.lookup ⟨1⟩] rfl⟩

end NameTable

end ScriptMachine
