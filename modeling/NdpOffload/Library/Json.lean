import NdpOffload.Library.Text

/-! JSON documents.  Strings and numbers are kept as they are written; of a string
that is what stands between its quotes. -/
namespace NdpOffload.Library.Json

open Library.Text

inductive Value where
  | null
  | bool (truth : Bool)
  | number (text : Chars)
  | string (contents : Chars)
  | array (items : List Value)
  | object (members : List (Chars × Value))

/-! ### Strings -/

/-- Inside a string, after a backslash, or with hexadecimal digits to come. -/
inductive Place where
  | plain
  | escaped
  | hex (left : Nat)
  deriving DecidableEq

def isHex (c : Char) : Bool :=
  c.isDigit || ('a' ≤ c && c ≤ 'f') || ('A' ≤ c && c ≤ 'F')

def Place.next : Place → Char → Option Place
  | .plain, c => if c = '\\' then some .escaped else if c.toNat < 32 then none else some .plain
  | .escaped, c =>
      if c = 'u' then some (.hex 4)
      else if c ∈ ['"', '\\', '/', 'b', 'f', 'n', 'r', 't'] then some .plain
      else none
  | .hex left, c =>
      if isHex c then if left ≤ 1 then some .plain else some (.hex (left - 1)) else none

/-- The contents up to the closing quote, and what follows it. -/
def scan : Place → Chars → Option (Chars × Chars)
  | _, [] => none
  | place, c :: rest =>
      if place = .plain ∧ c = '"' then some ([], rest)
      else (place.next c).bind fun next => (scan next rest).map fun found => (c :: found.1, found.2)

/-- What can stand between quotes. -/
def isContents : Place → Chars → Bool
  | place, [] => place = .plain
  | place, c :: rest =>
      if place = .plain ∧ c = '"' then false
      else match place.next c with
        | some next => isContents next rest
        | none => false

theorem scan_contents {place : Place} {text : Chars} (htext : isContents place text = true)
    (rest : Chars) : scan place (text ++ '"' :: rest) = some (text, rest) := by
  induction text generalizing place with
  | nil =>
    have hplain : place = .plain := of_decide_eq_true htext
    simp [scan, hplain]
  | cons c text ih =>
    rw [isContents] at htext
    rw [List.cons_append, scan]
    split_ifs at htext ⊢ with hquote
    cases hnext : place.next c with
    | none => simp [hnext] at htext
    | some next =>
      simp only [hnext] at htext
      rw [Option.bind_some, ih htext]
      rfl

theorem isContents_of_scan {place : Place} {text found rest : Chars}
    (hscan : scan place text = some (found, rest)) : isContents place found = true := by
  induction text generalizing place found with
  | nil => cases hscan
  | cons c text ih =>
    rw [scan] at hscan
    split_ifs at hscan with hquote
    · obtain ⟨rfl, -⟩ := Prod.mk.inj (Option.some.inj hscan)
      exact decide_eq_true hquote.1
    · obtain ⟨next, hnext, hscan⟩ := Option.bind_eq_some_iff.mp hscan
      obtain ⟨⟨later, _⟩, hlater, hfound⟩ := Option.map_eq_some_iff.mp hscan
      obtain ⟨rfl, rfl⟩ := Prod.mk.inj hfound
      rw [isContents, if_neg hquote, hnext]
      exact ih hlater

/-! ### Documents -/

def isBlank (c : Char) : Bool := c ∈ [' ', '\t', '\n', '\r']

/-- The text after one of the characters. -/
def after (marks : List Char) (text : Chars) : Option Chars :=
  match text with
  | [] => none
  | c :: rest => if c ∈ marks then some rest else none

/-- The text after the mark, which blanks may come before. -/
def expect (mark : Char) (text : Chars) : Option Chars := after [mark] (text.dropWhile isBlank)

/-- The text after one or more digits. -/
def digits (text : Chars) : Option Chars :=
  if (text.takeWhile Char.isDigit).isEmpty then none else some (text.dropWhile Char.isDigit)

/-- The text after a number. -/
def number (text : Chars) : Option Chars := do
  let unsigned := (after ['-'] text).getD text
  let whole ← match after ['0'] unsigned with
    | some rest => some rest
    | none => digits unsigned
  let fraction ← match after ['.'] whole with
    | some rest => digits rest
    | none => some whole
  match after ['e', 'E'] fraction with
  | some rest => digits ((after ['+', '-'] rest).getD rest)
  | none => some fraction

def word (text : Chars) : Option (Value × Chars) :=
  match stripPrefix "true".toList text with
  | some rest => some (.bool true, rest)
  | none => match stripPrefix "false".toList text with
    | some rest => some (.bool false, rest)
    | none => match stripPrefix "null".toList text with
      | some rest => some (.null, rest)
      | none => (number text).map fun rest => (.number (text.take (text.length - rest.length)), rest)

-- Every nested call is behind a character, so that the length of a text is fuel enough.
mutual

def value : Nat → Chars → Option (Value × Chars)
  | 0, _ => none
  | fuel + 1, text =>
      match expect '"' text with
      | some rest => (scan .plain rest).map fun found => (.string found.1, found.2)
      | none => match expect '\x7b' text with
        | some rest => match expect '\x7d' rest with
          | some rest => some (.object [], rest)
          | none => (members fuel rest).map fun found => (.object found.1, found.2)
        | none => match expect '[' text with
          | some rest => match expect ']' rest with
            | some rest => some (.array [], rest)
            | none => (items fuel rest).map fun found => (.array found.1, found.2)
          | none => word (text.dropWhile isBlank)

def members : Nat → Chars → Option (List (Chars × Value) × Chars)
  | 0, _ => none
  | fuel + 1, text =>
      (expect '"' text).bind fun rest => (scan .plain rest).bind fun name =>
        (expect ':' name.2).bind fun rest => (value fuel rest).bind fun found =>
          match expect ',' found.2 with
          | some rest => (members fuel rest).map fun others =>
              ((name.1, found.1) :: others.1, others.2)
          | none => (expect '\x7d' found.2).map fun rest => ([(name.1, found.1)], rest)

def items : Nat → Chars → Option (List Value × Chars)
  | 0, _ => none
  | fuel + 1, text =>
      (value fuel text).bind fun found =>
        match expect ',' found.2 with
        | some rest => (items fuel rest).map fun others => (found.1 :: others.1, others.2)
        | none => (expect ']' found.2).map fun rest => ([found.1], rest)

end

def parse (text : Chars) : Option Value :=
  (value (text.length + 1) text).bind fun found =>
    if found.2.all isBlank then some found.1 else none

/-! ### What is parsed is well formed -/

theorem word_flat {text rest : Chars} {found : Value} (hword : word text = some (found, rest)) :
    (∀ contents, found ≠ .string contents) ∧ ∀ others, found ≠ .object others := by
  rw [word] at hword
  split at hword
  · obtain ⟨rfl, -⟩ := Prod.mk.inj (Option.some.inj hword)
    exact ⟨nofun, nofun⟩
  · split at hword
    · obtain ⟨rfl, -⟩ := Prod.mk.inj (Option.some.inj hword)
      exact ⟨nofun, nofun⟩
    · split at hword
      · obtain ⟨rfl, -⟩ := Prod.mk.inj (Option.some.inj hword)
        exact ⟨nofun, nofun⟩
      · obtain ⟨_, -, heq⟩ := Option.map_eq_some_iff.mp hword
        obtain ⟨rfl, -⟩ := Prod.mk.inj heq
        exact ⟨nofun, nofun⟩

/-- The kinds of values, with what their parts were parsed from. -/
theorem value_cases {fuel : Nat} {text rest : Chars} {found : Value}
    (hvalue : value (fuel + 1) text = some (found, rest)) :
    (∃ contents tail, found = .string contents ∧ scan .plain tail = some (contents, rest)) ∨
      (∃ others, found = .object others ∧
        (others = [] ∨ ∃ tail, members fuel tail = some (others, rest))) ∨
      (∃ others, found = .array others) ∨ word (text.dropWhile isBlank) = some (found, rest) := by
  rw [value] at hvalue
  split at hvalue
  · rename_i tail _
    obtain ⟨⟨contents, _⟩, hscan, heq⟩ := Option.map_eq_some_iff.mp hvalue
    obtain ⟨rfl, rfl⟩ := Prod.mk.inj heq
    exact .inl ⟨contents, tail, rfl, hscan⟩
  · split at hvalue
    · right
      left
      split at hvalue
      · obtain ⟨rfl, -⟩ := Prod.mk.inj (Option.some.inj hvalue)
        exact ⟨[], rfl, .inl rfl⟩
      · obtain ⟨⟨others, _⟩, hothers, heq⟩ := Option.map_eq_some_iff.mp hvalue
        obtain ⟨rfl, rfl⟩ := Prod.mk.inj heq
        exact ⟨others, rfl, .inr ⟨_, hothers⟩⟩
    · right
      right
      split at hvalue
      · left
        split at hvalue
        · obtain ⟨rfl, -⟩ := Prod.mk.inj (Option.some.inj hvalue)
          exact ⟨[], rfl⟩
        · obtain ⟨⟨others, _⟩, -, heq⟩ := Option.map_eq_some_iff.mp hvalue
          obtain ⟨rfl, -⟩ := Prod.mk.inj heq
          exact ⟨others, rfl⟩
      · exact .inr hvalue

theorem isContents_of_value {fuel : Nat} {text contents rest : Chars}
    (hvalue : value fuel text = some (.string contents, rest)) :
    isContents .plain contents = true := by
  cases fuel with
  | zero => cases hvalue
  | succ fuel =>
    rcases value_cases hvalue with ⟨found, tail, heq, hscan⟩ | ⟨_, heq, -⟩ | ⟨_, heq⟩ | hword
    · rw [Value.string.inj heq]
      exact isContents_of_scan hscan
    · cases heq
    · cases heq
    · exact absurd rfl ((word_flat hword).1 contents)

theorem isContents_of_members {fuel : Nat} {text rest name contents : Chars}
    {found : List (Chars × Value)} (hmembers : members fuel text = some (found, rest))
    (hmem : (name, .string contents) ∈ found) : isContents .plain contents = true := by
  induction fuel generalizing text found rest with
  | zero => cases hmembers
  | succ fuel ih =>
    rw [members] at hmembers
    obtain ⟨quoted, -, hmembers⟩ := Option.bind_eq_some_iff.mp hmembers
    obtain ⟨first, -, hmembers⟩ := Option.bind_eq_some_iff.mp hmembers
    obtain ⟨valued, -, hmembers⟩ := Option.bind_eq_some_iff.mp hmembers
    obtain ⟨⟨json, tail⟩, hvalue, hmembers⟩ := Option.bind_eq_some_iff.mp hmembers
    have hhead : (name, Value.string contents) = (first.1, json) →
        isContents .plain contents = true := by
      intro heq
      obtain ⟨-, rfl⟩ := Prod.mk.inj heq
      exact isContents_of_value hvalue
    split at hmembers
    · obtain ⟨⟨others, _⟩, hothers, heq⟩ := Option.map_eq_some_iff.mp hmembers
      obtain ⟨rfl, -⟩ := Prod.mk.inj heq
      rcases List.mem_cons.mp hmem with hfirst | hlater
      · exact hhead hfirst
      · exact ih hothers hlater
    · obtain ⟨_, -, heq⟩ := Option.map_eq_some_iff.mp hmembers
      obtain ⟨rfl, -⟩ := Prod.mk.inj heq
      exact hhead (List.mem_singleton.mp hmem)

/-- The string members of a document are such as can stand between quotes. -/
theorem isContents_of_parse {text name contents : Chars} {found : List (Chars × Value)}
    (hparse : parse text = some (.object found)) (hmem : (name, .string contents) ∈ found) :
    isContents .plain contents = true := by
  obtain ⟨⟨json, rest⟩, hvalue, hdone⟩ := Option.bind_eq_some_iff.mp hparse
  split_ifs at hdone
  obtain rfl : json = .object found := Option.some.inj hdone
  rcases value_cases hvalue with ⟨_, _, heq, -⟩ | ⟨others, heq, hothers⟩ | ⟨_, heq⟩ | hword
  · cases heq
  · rw [Value.object.inj heq] at hmem
    rcases hothers with rfl | ⟨tail, hothers⟩
    · cases hmem
    · exact isContents_of_members hothers hmem
  · cases heq
  · exact absurd rfl ((word_flat hword).2 found)

/-! ### Flat objects -/

/-- A string or a truth value, as it is written. -/
inductive Writes : Value → Chars → Prop
  | string {contents : Chars} : isContents .plain contents = true →
      Writes (.string contents) ('"' :: (contents ++ ['"']))
  | bool (truth : Bool) :
      Writes (.bool truth) (if truth then "true".toList else "false".toList)

theorem expect_mark {mark : Char} (hmark : isBlank mark = false) (rest : Chars) :
    expect mark (mark :: rest) = some rest := by
  rw [expect, List.dropWhile_cons_of_neg (by simp [hmark])]
  simp [after]

theorem expect_other {mark c : Char} (hc : isBlank c = false) (hne : c ≠ mark) (rest : Chars) :
    expect mark (c :: rest) = none := by
  rw [expect, List.dropWhile_cons_of_neg (by simp [hc])]
  simp [after, hne]

/-- A text that begins like none of the values with delimiters. -/
theorem value_word {c : Char} (hc : isBlank c = false) (hquote : c ≠ '"') (hopen : c ≠ '\x7b')
    (hbracket : c ≠ '[') (fuel : Nat) (rest : Chars) :
    value (fuel + 1) (c :: rest) = word (c :: rest) := by
  rw [value, expect_other hc hquote, expect_other hc hopen, expect_other hc hbracket,
    List.dropWhile_cons_of_neg (by simp [hc])]

theorem value_writes {json : Value} {text : Chars} (htext : Writes json text) (fuel : Nat)
    (rest : Chars) : value (fuel + 1) (text ++ rest) = some (json, rest) := by
  cases htext with
  | @string contents hcontents =>
    rw [List.cons_append, List.append_assoc, List.singleton_append, value, expect_mark (by decide)]
    simp only [scan_contents hcontents]
    rfl
  | bool truth =>
    cases truth with
    | true =>
      have hword : value (fuel + 1) ('t' :: ("rue".toList ++ rest)) = word _ :=
        value_word (by decide) (by decide) (by decide) (by decide) fuel _
      exact hword.trans (by simp [word, stripPrefix])
    | false =>
      have hword : value (fuel + 1) ('f' :: ("alse".toList ++ rest)) = word _ :=
        value_word (by decide) (by decide) (by decide) (by decide) fuel _
      exact hword.trans (by simp [word, stripPrefix])

/-- A member whose value is written as `text`. -/
def memberText (member : Chars × Chars) : Chars :=
  '"' :: (member.1 ++ '"' :: ':' :: member.2)

/-- The members of an object and how they are written. -/
def Lists (written : List (Chars × Chars)) (found : List (Chars × Value)) : Prop :=
  List.Forall₂ (fun member json => member.1 = json.1 ∧ isContents .plain member.1 = true ∧
    Writes json.2 member.2) written found

theorem members_flat {written : List (Chars × Chars)} {found : List (Chars × Value)}
    (hne : written ≠ []) (hlists : Lists written found) {fuel : Nat}
    (hfuel : written.length + 1 ≤ fuel) (rest : Chars) :
    members fuel (joinWith ',' (written.map memberText) ++ '\x7d' :: rest) =
      some (found, rest) := by
  induction hlists generalizing fuel with
  | nil => exact absurd rfl hne
  | @cons member json written found hhead htail ih =>
    obtain ⟨hname, hcontents, hwrites⟩ := hhead
    obtain ⟨fuel, rfl⟩ : ∃ less, fuel = less + 2 := ⟨fuel - 2, by
      rw [List.length_cons] at hfuel
      omega⟩
    -- the member, whatever comes after it
    have hfirst : ∀ tail, members (fuel + 2) (memberText member ++ tail) =
        match expect ',' tail with
        | some later => (members (fuel + 1) later).map fun others => (json :: others.1, others.2)
        | none => (expect '\x7d' tail).map fun later => ([json], later) := by
      intro tail
      have htext : memberText member ++ tail =
          '"' :: (member.1 ++ '"' :: ':' :: (member.2 ++ tail)) := by
        simp [memberText]
      rw [htext, members, expect_mark (by decide), Option.bind_some, scan_contents hcontents,
        Option.bind_some, expect_mark (by decide), Option.bind_some, value_writes hwrites,
        Option.bind_some]
      simp only [hname]
    cases htail with
    | nil =>
      rw [List.map_singleton, joinWith, List.intercalate_singleton, hfirst,
        expect_other (by decide) (by decide), expect_mark (by decide)]
      rfl
    | @cons next json' later found' hnext hlater =>
      have hless : (next :: later).length + 1 ≤ fuel + 1 := by
        simp only [List.length_cons] at hfuel ⊢
        omega
      have hothers := ih (List.cons_ne_nil _ _) hless
      rw [List.map_cons, List.map_cons, joinWith_cons_cons, List.append_assoc, List.cons_append,
        hfirst, expect_mark (by decide)]
      rw [List.map_cons] at hothers
      simp only [hothers]
      rfl

theorem length_le_joinWith (written : List (Chars × Chars)) :
    written.length ≤ (joinWith ',' (written.map memberText)).length := by
  induction written with
  | nil => exact Nat.zero_le _
  | cons member written ih =>
    cases written with
    | nil => simp [joinWith, memberText]
    | cons next later =>
      rw [List.map_cons] at ih
      rw [List.map_cons, List.map_cons, joinWith_cons_cons, List.length_append]
      simp only [List.length_cons] at ih ⊢
      omega

/-- The text of an object is parsed back to its members. -/
theorem parse_flat {written : List (Chars × Chars)} {found : List (Chars × Value)}
    (hne : written ≠ []) (hlists : Lists written found) :
    parse ('\x7b' :: (joinWith ',' (written.map memberText) ++ ['\x7d'])) =
      some (.object found) := by
  have hlength := length_le_joinWith written
  have hfuel : written.length + 1 ≤
      ('\x7b' :: (joinWith ',' (written.map memberText) ++ ['\x7d'])).length := by
    simp only [List.length_cons, List.length_append, List.length_nil]
    omega
  have hmembers := members_flat hne hlists hfuel []
  have hopen : expect '\x7d' (joinWith ',' (written.map memberText) ++ ['\x7d']) = none := by
    cases written with
    | nil => exact absurd rfl hne
    | cons member later =>
      cases later with
      | nil => exact expect_other (by decide) (by decide) _
      | cons next later =>
        rw [List.map_cons, List.map_cons, joinWith_cons_cons]
        exact expect_other (by decide) (by decide) _
  rw [parse, value, expect_other (by decide) (by decide), expect_mark (by decide)]
  simp only [hopen, hmembers]
  rfl

end NdpOffload.Library.Json
