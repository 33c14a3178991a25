import Mathlib.Algebra.Ring.Int.Defs
import Mathlib.Algebra.Ring.Nat
import Mathlib.Data.List.Basic
import Mathlib.Data.List.DropRight
import Mathlib.Tactic.Common

/-! Text as lists of characters: decimal numbers, fields and lines, with the
round trips between writing and reading them.  The reading functions follow
the documented behaviour of Rust's `str`. -/
namespace NdpOffload.Library.Text

abbrev Chars := List Char

/-- Decided on the text, not on all characters. -/
instance (priority := 1100) decidableForallMem (p : Char → Prop) [DecidablePred p] (text : Chars) :
    Decidable (∀ c ∈ text, p c) := List.decidableBAll p text

/-! ### Decimal numbers -/

/-- The decimal digits of a natural number, without leading zeros. -/
def decimal (n : Nat) : Chars := Nat.toDigits 10 n

/-- The decimal form of an integer, with a sign only in front of negative ones. -/
def decimalInt (z : Int) : Chars :=
  if z < 0 then '-' :: decimal z.natAbs else decimal z.natAbs

/-- One or more ASCII digits, read in base ten. -/
def parseDigits (text : Chars) : Option Nat :=
  if text ≠ [] ∧ text.all Char.isDigit then some (Nat.ofDigitChars 10 text 0) else none

/-- `str::parse::<u64>`: an optional `+`, digits, and a value that fits. -/
def parseU64 (text : Chars) : Option UInt64 :=
  let digits := match text with
    | '+' :: rest => rest
    | rest => rest
  (parseDigits digits).bind fun n => if n < 2 ^ 64 then some (UInt64.ofNat n) else none

/-- `str::parse::<i64>`: an optional sign, digits, and a value that fits. -/
def parseI64 (text : Chars) : Option Int64 :=
  match text with
  | '-' :: rest => (parseDigits rest).bind fun n =>
      if n ≤ 2 ^ 63 then some (Int64.ofInt (-n)) else none
  | '+' :: rest => (parseDigits rest).bind fun n =>
      if n < 2 ^ 63 then some (Int64.ofInt n) else none
  | rest => (parseDigits rest).bind fun n =>
      if n < 2 ^ 63 then some (Int64.ofInt n) else none

theorem isDigit_of_mem_decimal {n : Nat} {c : Char} (hmem : c ∈ decimal n) :
    c.isDigit = true :=
  Nat.isDigit_of_mem_toDigits (by decide) (by decide) hmem

theorem decimal_ne_nil (n : Nat) : decimal n ≠ [] := Nat.toDigits_ne_nil

/-- A character that is no digit does not occur in a decimal number. -/
theorem notMem_decimal {n : Nat} {c : Char} (hc : c.isDigit = false) : c ∉ decimal n := by
  intro hmem
  rw [isDigit_of_mem_decimal hmem] at hc
  cases hc

theorem notMem_decimalInt {z : Int} {c : Char} (hc : c.isDigit = false) (hsign : c ≠ '-') :
    c ∉ decimalInt z := by
  unfold decimalInt
  split
  · intro hmem
    rcases List.mem_cons.mp hmem with hhead | htail
    · exact hsign hhead
    · exact notMem_decimal hc htail
  · exact notMem_decimal hc

@[simp] theorem parseDigits_decimal (n : Nat) : parseDigits (decimal n) = some n := by
  have hall : (decimal n).all Char.isDigit = true :=
    List.all_eq_true.mpr fun c hc => isDigit_of_mem_decimal hc
  unfold parseDigits
  rw [if_pos ⟨decimal_ne_nil n, hall⟩]
  exact congrArg some Nat.ofDigitChars_ten_toDigits

/-- The first character of a decimal number is a digit, hence no sign. -/
theorem decimal_eq_cons (n : Nat) :
    ∃ c rest, decimal n = c :: rest ∧ c ≠ '+' ∧ c ≠ '-' := by
  obtain ⟨c, rest, heq⟩ := List.exists_cons_of_ne_nil (decimal_ne_nil n)
  have hdigit : c.isDigit = true :=
    isDigit_of_mem_decimal (n := n) (by rw [heq]; exact List.mem_cons_self)
  refine ⟨c, rest, heq, ?_, ?_⟩ <;>
  · rintro rfl
    revert hdigit
    decide

theorem parseU64_decimal_of_lt {n : Nat} (hn : n < 2 ^ 64) :
    parseU64 (decimal n) = some (UInt64.ofNat n) := by
  obtain ⟨c, rest, heq, hplus, _⟩ := decimal_eq_cons n
  have hdigits := parseDigits_decimal n
  unfold parseU64
  rw [heq] at hdigits ⊢
  split
  · rename_i tail hcons
    exact absurd (List.cons.inj hcons).1 hplus
  · simp only [hdigits, Option.bind_some, if_pos hn]

@[simp] theorem parseU64_decimal (n : UInt64) : parseU64 (decimal n.toNat) = some n := by
  rw [parseU64_decimal_of_lt n.toNat_lt, UInt64.ofNat_toNat]

theorem parseDigits_chars {text : Chars} {n : Nat} (htext : parseDigits text = some n) :
    text ≠ [] ∧ ∀ c ∈ text, c.isDigit = true := by
  unfold parseDigits at htext
  split at htext
  · rename_i hdigits
    exact ⟨hdigits.1, List.all_eq_true.mp hdigits.2⟩
  · cases htext

/-- An integer in decimal, with or without a sign and leading zeros. -/
inductive Numeral : Int → Chars → Prop
  | plain {n : Nat} {digits : Chars} : parseDigits digits = some n → Numeral n digits
  | plus {n : Nat} {digits : Chars} : parseDigits digits = some n → Numeral n ('+' :: digits)
  | minus {n : Nat} {digits : Chars} : parseDigits digits = some n → Numeral (-n) ('-' :: digits)

theorem Numeral.parse {z : Int} {text : Chars} (htext : Numeral z text) (hlow : -2 ^ 63 ≤ z)
    (hhigh : z < 2 ^ 63) : parseI64 text = some (Int64.ofInt z) := by
  unfold parseI64
  cases htext with
  | @plain n digits hdigits =>
    obtain ⟨-, hchars⟩ := parseDigits_chars hdigits
    split
    · exact absurd (hchars '-' List.mem_cons_self) (by decide)
    · exact absurd (hchars '+' List.mem_cons_self) (by decide)
    · rw [hdigits, Option.bind_some, if_pos (by omega)]
  | plus hdigits =>
    simp only [hdigits, Option.bind_some]
    rw [if_pos (by omega)]
  | minus hdigits =>
    simp only [hdigits, Option.bind_some]
    rw [if_pos (by omega)]

theorem Numeral.chars {z : Int} {text : Chars} (htext : Numeral z text) :
    (∀ c ∈ text, c.isDigit = true ∨ c = '+' ∨ c = '-') ∧
      ∀ c, text.getLast? = some c → c.isDigit = true := by
  have hsigned : ∀ {n : Nat} {digits : Chars} (sign : Char), parseDigits digits = some n →
      ∀ c, (sign :: digits).getLast? = some c → c.isDigit = true := by
    intro n digits sign hdigits c hc
    obtain ⟨hne, hchars⟩ := parseDigits_chars hdigits
    obtain ⟨front, last, rfl⟩ := (List.eq_nil_or_concat' digits).resolve_left hne
    rw [← List.cons_append, List.getLast?_concat, Option.some.injEq] at hc
    exact hc ▸ hchars last (by simp)
  cases htext with
  | plain hdigits =>
    have hchars := (parseDigits_chars hdigits).2
    exact ⟨fun c hc => .inl (hchars c hc), fun c hc => hchars c (List.mem_of_getLast? hc)⟩
  | plus hdigits =>
    refine ⟨fun c hc => ?_, hsigned '+' hdigits⟩
    rcases List.mem_cons.mp hc with rfl | hc
    · exact .inr (.inl rfl)
    · exact .inl ((parseDigits_chars hdigits).2 c hc)
  | minus hdigits =>
    refine ⟨fun c hc => ?_, hsigned '-' hdigits⟩
    rcases List.mem_cons.mp hc with rfl | hc
    · exact .inr (.inr rfl)
    · exact .inl ((parseDigits_chars hdigits).2 c hc)

theorem Numeral.ne_nil {z : Int} {text : Chars} (htext : Numeral z text) : text ≠ [] := by
  cases htext with
  | plain hdigits => exact (parseDigits_chars hdigits).1
  | plus _ => exact List.cons_ne_nil _ _
  | minus _ => exact List.cons_ne_nil _ _

theorem parseI64_decimal_of_lt {n : Nat} (hn : n < 2 ^ 63) :
    parseI64 (decimal n) = some (Int64.ofNat n) := by
  obtain ⟨c, rest, heq, hplus, hminus⟩ := decimal_eq_cons n
  have hdigits := parseDigits_decimal n
  unfold parseI64
  rw [heq] at hdigits ⊢
  split
  · rename_i tail hcons
    exact absurd (List.cons.inj hcons).1 hminus
  · rename_i tail hcons
    exact absurd (List.cons.inj hcons).1 hplus
  · simp only [hdigits, Option.bind_some, if_pos hn, Int64.ofInt_eq_ofNat]

/-! ### Lines -/

/-- A carriage return before a newline belongs to the line ending. -/
def chomp (line : Chars) : Chars :=
  if line.getLast? = some '\r' then line.dropLast else line

/-- `BufRead::lines` and `str::lines`: the pieces that a newline ends, without
that newline, and a last piece without one unless it is empty. -/
def lines (text : Chars) : List Chars :=
  let pieces := text.splitOn '\n'
  pieces.dropLast.map chomp ++ pieces.getLast?.toList.filter (· ≠ [])

/-- Write each line with its newline. -/
def unlines (pieces : List Chars) : Chars := pieces.flatMap (· ++ ['\n'])

theorem unlines_append (left right : List Chars) :
    unlines (left ++ right) = unlines left ++ unlines right := by
  simp [unlines]

theorem splitOn_unlines (pieces : List Chars) (hpieces : ∀ piece ∈ pieces, '\n' ∉ piece) :
    (unlines pieces).splitOn '\n' = pieces ++ [[]] := by
  have hjoin : unlines pieces = ['\n'].intercalate (pieces ++ [[]]) := by
    induction pieces with
    | nil => rfl
    | cons piece rest ih =>
      have hrest := ih fun p hp => hpieces p (List.mem_cons_of_mem _ hp)
      cases rest with
      | nil => simp [unlines, List.intercalate]
      | cons next rest =>
        simp only [unlines, List.flatMap_cons, List.cons_append, List.intercalate_cons_cons]
          at hrest ⊢
        rw [hrest]
  rw [hjoin]
  apply List.splitOn_intercalate
  · intro piece hmem
    rcases List.mem_append.mp hmem with hold | hlast
    · exact hpieces piece hold
    · simp_all
  · simp

/-- Lines that contain no newline and do not end in a carriage return are read
back as they were written. -/
theorem lines_unlines (pieces : List Chars) (hpieces : ∀ piece ∈ pieces, '\n' ∉ piece)
    (hchomp : ∀ piece ∈ pieces, chomp piece = piece) :
    lines (unlines pieces) = pieces := by
  unfold lines
  rw [splitOn_unlines pieces hpieces]
  simp only [List.dropLast_concat, List.getLast?_append, List.getLast?_singleton]
  rw [List.map_congr_left hchomp]
  simp

/-- A line that ends in something other than a carriage return is kept. -/
theorem chomp_of_getLast {line : Chars} {c : Char} (hlast : line.getLast? = some c)
    (hc : c ≠ '\r') : chomp line = line := by
  unfold chomp
  rw [hlast, if_neg]
  intro heq
  exact hc (Option.some.inj heq)

theorem chomp_of_notMem {line : Chars} (hline : '\r' ∉ line) : chomp line = line := by
  unfold chomp
  rw [if_neg fun h => hline (List.mem_of_getLast? h)]

theorem chomp_append {left right : Chars} (hne : right ≠ []) (hright : '\r' ∉ right) :
    chomp (left ++ right) = left ++ right := by
  obtain ⟨c, hc⟩ := Option.ne_none_iff_exists'.mp (mt List.getLast?_eq_none_iff.mp hne)
  apply chomp_of_getLast (c := c)
  · rw [List.getLast?_append, hc]
    rfl
  · rintro rfl
    exact hright (List.mem_of_getLast? hc)

/-! ### Blanks -/

/-- Unicode's `White_Space` property. -/
def isWhitespace (c : Char) : Bool :=
  (9 ≤ c.toNat && c.toNat ≤ 13) || (0x2000 ≤ c.toNat && c.toNat ≤ 0x200A) ||
    c.toNat ∈ [32, 0x85, 0xA0, 0x1680, 0x2028, 0x2029, 0x202F, 0x205F, 0x3000]

def isAsciiWhitespace (c : Char) : Bool := c ∈ [' ', '\t', '\n', '\x0c', '\r']

def trimEnd (blank : Char → Bool) (text : Chars) : Chars := text.rdropWhile blank

/-- Drop the characters satisfying `blank` on both sides. -/
def trim (blank : Char → Bool) (text : Chars) : Chars := trimEnd blank (text.dropWhile blank)

section Trim

variable {blank : Char → Bool} {text : Chars}

theorem trim_concat {c : Char} (hc : blank c = true) (text : Chars) :
    trim blank (text ++ [c]) = trim blank text := by
  unfold trim trimEnd
  rw [List.dropWhile_append]
  cases hstart : text.dropWhile blank with
  | nil => simp [hc]
  | cons d rest =>
    rw [List.isEmpty_cons, if_neg (by simp), List.rdropWhile_concat_pos _ _ _ hc]

theorem trim_newline (hnewline : blank '\n' = true) (text : Chars) :
    trim blank (text ++ ['\n']) = trim blank text :=
  trim_concat hnewline text

theorem trim_append_blanks (text : Chars) {tail : Chars} (htail : ∀ c ∈ tail, blank c = true) :
    trim blank (text ++ tail) = trim blank text := by
  induction tail generalizing text with
  | nil => rw [List.append_nil]
  | cons c tail ih =>
    rw [List.append_cons, ih (text ++ [c]) fun d hd => htail d (List.mem_cons_of_mem c hd),
      trim_concat (htail c List.mem_cons_self)]

theorem trim_blanks_append {start : Chars} (hstart : ∀ c ∈ start, blank c = true) (text : Chars) :
    trim blank (start ++ text) = trim blank text := by
  rw [trim, trim, List.dropWhile_append_of_pos hstart]

theorem trim_dropWhile (text : Chars) : trim blank (text.dropWhile blank) = trim blank text := by
  have hblanks : ∀ c ∈ text.takeWhile blank, blank c = true := fun c hc => List.mem_takeWhile_imp hc
  rw [← trim_blanks_append hblanks, List.takeWhile_append_dropWhile]

theorem trim_trimEnd (text : Chars) : trim blank (trimEnd blank text) = trim blank text := by
  have hblanks : ∀ c ∈ text.rtakeWhile blank, blank c = true :=
    fun c hc => List.mem_rtakeWhile_imp hc
  rw [← trim_append_blanks _ hblanks, trimEnd, List.rdropWhile_append_rtakeWhile]

theorem trimEnd_of_last (hlast : ∀ c, text.getLast? = some c → blank c = false) :
    trimEnd blank text = text := by
  rw [trimEnd, List.rdropWhile_eq_self_iff]
  intro hne
  rw [hlast _ (List.getLast?_eq_some_getLast hne)]
  simp

theorem trimEnd_append_blanks (text : Chars) {tail : Chars} (htail : ∀ c ∈ tail, blank c = true) :
    trimEnd blank (text ++ tail) = trimEnd blank text := by
  rw [trimEnd, trimEnd, List.rdropWhile, List.reverse_append, List.dropWhile_append_of_pos,
    List.rdropWhile]
  exact fun c hc => htail c (List.mem_reverse.mp hc)

theorem dropWhile_append_cons {c : Char} (hc : blank c = false) (left right : Chars) :
    (left ++ c :: right).dropWhile blank = left.dropWhile blank ++ c :: right := by
  rw [List.dropWhile_append]
  cases left.dropWhile blank with
  | nil => simp [hc]
  | cons d rest => rfl

/-- Trimming a text around a character that is no blank. -/
theorem trim_append_cons {c : Char} (hc : blank c = false) (left right : Chars) :
    trim blank (left ++ c :: right) = left.dropWhile blank ++ c :: trimEnd blank right := by
  rw [trim, dropWhile_append_cons hc, trimEnd, List.rdropWhile, List.reverse_append,
    List.reverse_cons, List.append_assoc, List.singleton_append, dropWhile_append_cons hc]
  simp [trimEnd, List.rdropWhile]

theorem trim_chomp (hreturn : blank '\r' = true) (line : Chars) :
    trim blank (chomp line) = trim blank line := by
  unfold chomp
  split
  · rename_i hlast
    obtain ⟨front, rfl⟩ := List.getLast?_eq_some_iff.mp hlast
    rw [List.dropLast_concat, trim_concat hreturn]
  · rfl

theorem mem_of_mem_trim {c : Char} (hc : c ∈ trim blank text) : c ∈ text :=
  (List.dropWhile_sublist _).subset ((List.rdropWhile_prefix _ _).subset hc)

/-- Without a blank at either end there is nothing to trim. -/
theorem trim_of_ends (hhead : ∀ c, text.head? = some c → blank c = false)
    (hlast : ∀ c, text.getLast? = some c → blank c = false) : trim blank text = text := by
  have hstart : text.dropWhile blank = text := by
    cases text with
    | nil => rfl
    | cons c rest => simp [hhead c rfl]
  rw [trim, hstart, trimEnd_of_last hlast]

theorem trim_of_notBlank (htext : ∀ c ∈ text, blank c = false) : trim blank text = text :=
  trim_of_ends (fun c hc => htext c (List.mem_of_head? hc))
    fun c hc => htext c (List.mem_of_getLast? hc)

end Trim

/-- The maximal pieces without a blank character. -/
def words (blank : Char → Bool) (text : Chars) : List Chars :=
  (text.splitOnP blank).filter (· ≠ [])

/-! ### Fields -/

/-- `str::split_once`: what stands before and after the first `sep`. -/
def splitOnce (sep : Char) (text : Chars) : Option (Chars × Chars) :=
  match text.dropWhile (· ≠ sep) with
  | [] => none
  | _ :: rest => some (text.takeWhile (· ≠ sep), rest)

def stripPrefix (start text : Chars) : Option Chars :=
  if start.isPrefixOf text then some (text.drop start.length) else none

def stripSuffix (stop text : Chars) : Option Chars :=
  if stop.isSuffixOf text then some (text.take (text.length - stop.length)) else none

theorem splitOnce_append_cons {sep : Char} {left : Chars} (hleft : sep ∉ left) (right : Chars) :
    splitOnce sep (left ++ sep :: right) = some (left, right) := by
  have hne : ∀ c ∈ left, decide (c ≠ sep) = true := fun c hc => by
    rw [decide_eq_true_eq]
    rintro rfl
    exact hleft hc
  rw [splitOnce, List.dropWhile_append_of_pos hne, List.takeWhile_append_of_pos hne,
    List.dropWhile_cons_of_neg (by simp), List.takeWhile_cons_of_neg (by simp), List.append_nil]

@[simp] theorem stripSuffix_append (text stop : Chars) :
    stripSuffix stop (text ++ stop) = some text := by
  rw [stripSuffix, if_pos (by simp)]
  simp

/-- A text with another last character is not shortened. -/
theorem stripSuffix_of_last {front text : Chars} {stop c : Char} (hlast : text.getLast? = some c)
    (hc : c ≠ stop) : stripSuffix (front ++ [stop]) text = none := by
  rw [stripSuffix, if_neg]
  intro hsuffix
  obtain ⟨rest, rfl⟩ := List.isSuffixOf_iff_suffix.mp hsuffix
  rw [← List.append_assoc, List.getLast?_concat, Option.some.injEq] at hlast
  exact hc hlast.symm

/-- Fields written with a separator between them. -/
def joinWith (sep : Char) (fields : List Chars) : Chars := [sep].intercalate fields

theorem joinWith_cons_cons (sep : Char) (field next : Chars) (rest : List Chars) :
    joinWith sep (field :: next :: rest) = field ++ sep :: joinWith sep (next :: rest) := by
  simp [joinWith, List.intercalate_cons_cons]

theorem joinWith_concat (sep : Char) {front : List Chars} (last : Chars) (hfront : front ≠ []) :
    joinWith sep (front ++ [last]) = joinWith sep front ++ sep :: last := by
  induction front with
  | nil => exact absurd rfl hfront
  | cons field rest ih =>
    cases rest with
    | nil => simp [joinWith]
    | cons next rest =>
      have htail := ih (by simp)
      simp only [List.cons_append] at htail ⊢
      rw [joinWith_cons_cons, joinWith_cons_cons, htail]
      simp

/-- Fields free of the separator are recovered by splitting at it. -/
theorem splitOn_joinWith {sep : Char} {fields : List Chars} (hne : fields ≠ [])
    (hsep : ∀ field ∈ fields, sep ∉ field) : (joinWith sep fields).splitOn sep = fields :=
  List.splitOn_intercalate sep hsep hne

/-- The pieces of a text consist of its characters other than the separator. -/
theorem mem_of_mem_splitOn {sep c : Char} {text piece : Chars} (hpiece : piece ∈ text.splitOn sep)
    (hc : c ∈ piece) : c ∈ text ∧ c ≠ sep := by
  induction text generalizing piece with
  | nil =>
    rw [List.splitOn_nil, List.mem_singleton] at hpiece
    subst hpiece
    cases hc
  | cons d text ih =>
    rw [List.splitOn_cons_eq_if_modifyHead] at hpiece
    by_cases hd : d = sep
    · rw [if_pos (by simp [hd]), List.mem_cons] at hpiece
      rcases hpiece with rfl | hpiece
      · cases hc
      · exact ⟨List.mem_cons_of_mem d (ih hpiece hc).1, (ih hpiece hc).2⟩
    · rw [if_neg (by simp [hd])] at hpiece
      obtain ⟨first, rest, hsplit⟩ := List.exists_cons_of_ne_nil (List.splitOn_ne_nil sep text)
      rw [hsplit, List.modifyHead_cons, List.mem_cons] at hpiece
      rcases hpiece with rfl | hpiece
      · rcases List.mem_cons.mp hc with rfl | hc
        · exact ⟨List.mem_cons_self, hd⟩
        · have hfirst := ih (hsplit ▸ List.mem_cons_self) hc
          exact ⟨List.mem_cons_of_mem d hfirst.1, hfirst.2⟩
      · have hrest := ih (hsplit ▸ List.mem_cons_of_mem first hpiece) hc
        exact ⟨List.mem_cons_of_mem d hrest.1, hrest.2⟩

theorem notMem_joinWith {sep c : Char} {fields : List Chars} (hc : c ≠ sep)
    (hfields : ∀ field ∈ fields, c ∉ field) : c ∉ joinWith sep fields := by
  induction fields with
  | nil => simp [joinWith]
  | cons field rest ih =>
    cases rest with
    | nil => simpa [joinWith] using hfields field List.mem_cons_self
    | cons next rest =>
      have hrest := ih fun f hf => hfields f (List.mem_cons_of_mem _ hf)
      have hfield := hfields field List.mem_cons_self
      simp only [joinWith, List.intercalate_cons_cons] at hrest ⊢
      simp [hrest, hfield, hc]

/-! ### Columns -/

def IsWord (blank : Char → Bool) (word : Chars) : Prop :=
  word ≠ [] ∧ ∀ c ∈ word, blank c = false

/-- Columns, each after some spaces. -/
def padded (cells : List (Nat × Chars)) : Chars :=
  cells.flatMap fun cell => List.replicate cell.1 ' ' ++ cell.2

section Columns

variable {blank : Char → Bool}

theorem isWord_decimal (hblank : ∀ c, blank c = true → c.isDigit = false) (n : Nat) :
    IsWord blank (decimal n) := by
  refine ⟨decimal_ne_nil n, fun c hc => ?_⟩
  have hdigit := isDigit_of_mem_decimal hc
  cases hb : blank c with
  | false => rfl
  | true =>
    rw [hblank c hb] at hdigit
    cases hdigit

theorem isDigit_of_isWhitespace {c : Char} (hc : isWhitespace c = true) : c.isDigit = false := by
  rw [Bool.eq_false_iff]
  intro hdigit
  have hbounds : 48 ≤ c.toNat ∧ c.toNat ≤ 57 := by
    simpa [Char.isDigit, UInt32.le_iff_toNat_le] using hdigit
  simp only [isWhitespace, Bool.or_eq_true, Bool.and_eq_true, decide_eq_true_eq, List.mem_cons,
    List.not_mem_nil, or_false] at hc
  omega

theorem isWhitespace_of_ascii {c : Char} (hc : isAsciiWhitespace c = true) :
    isWhitespace c = true := by
  simp only [isAsciiWhitespace, List.mem_cons, List.not_mem_nil, or_false, decide_eq_true_eq] at hc
  rcases hc with rfl | rfl | rfl | rfl | rfl <;> decide

theorem words_cons_blank {c : Char} (hc : blank c = true) (text : Chars) :
    words blank (c :: text) = words blank text := by
  simp [words, List.splitOnP_cons_eq_if_modifyHead, hc]

theorem words_spaces (hspace : blank ' ' = true) (n : Nat) (text : Chars) :
    words blank (List.replicate n ' ' ++ text) = words blank text := by
  induction n with
  | zero => rfl
  | succ n ih => rw [List.replicate_succ, List.cons_append, words_cons_blank hspace, ih]

theorem words_word {word : Chars} (hword : IsWord blank word) : words blank word = [word] := by
  rw [words, List.splitOnP_eq_singleton hword.2]
  simp [hword.1]

theorem words_append_cons {word : Chars} (hword : IsWord blank word) {c : Char}
    (hc : blank c = true) (text : Chars) :
    words blank (word ++ c :: text) = word :: words blank text := by
  rw [words, List.splitOnP_append_cons_of_forall_mem hword.2 c hc,
    List.filter_cons_of_pos (by simp [hword.1]), words]

/-- Columns that blanks keep apart are read back. -/
theorem words_padded (hspace : blank ' ' = true) {indent : Nat} {word : Chars}
    {cells : List (Nat × Chars)} (hword : IsWord blank word)
    (hcells : ∀ cell ∈ cells, 0 < cell.1 ∧ IsWord blank cell.2) :
    words blank (padded ((indent, word) :: cells)) = word :: cells.map Prod.snd := by
  induction cells generalizing indent word with
  | nil =>
    have hone := words_spaces hspace indent word
    simpa [padded, words_word hword] using hone
  | cons cell cells ih =>
    obtain ⟨hgap, hnext⟩ := hcells cell List.mem_cons_self
    have hrest : words blank (padded ((cell.1 - 1, cell.2) :: cells)) =
        cell.2 :: cells.map Prod.snd :=
      ih hnext fun c hc => hcells c (List.mem_cons_of_mem _ hc)
    have hsplit : padded ((indent, word) :: cell :: cells) =
        List.replicate indent ' ' ++ (word ++ ' ' :: padded ((cell.1 - 1, cell.2) :: cells)) := by
      obtain ⟨gap, hcell⟩ := Nat.exists_eq_succ_of_ne_zero (Nat.pos_iff_ne_zero.mp hgap)
      simp [padded, hcell, List.replicate_succ]
    rw [hsplit, words_spaces hspace, words_append_cons hword hspace, hrest, List.map_cons]

theorem padded_ends (indent : Nat) {word : Chars} {cells : List (Nat × Chars)}
    (hword : IsWord blank word) (hcells : ∀ cell ∈ cells, IsWord blank cell.2) :
    ∃ front last, padded ((indent, word) :: cells) = front ++ [last] ∧ blank last = false := by
  obtain ⟨front, cell, hlast⟩ : ∃ front cell, (indent, word) :: cells = front ++ [cell] :=
    ⟨_, _, (List.dropLast_append_getLast (List.cons_ne_nil _ _)).symm⟩
  have hcell : IsWord blank cell.2 := by
    have hmem : cell ∈ (indent, word) :: cells := by
      rw [hlast]
      simp
    rcases List.mem_cons.mp hmem with rfl | htail
    · exact hword
    · exact hcells cell htail
  refine ⟨padded front ++ List.replicate cell.1 ' ' ++ cell.2.dropLast, cell.2.getLast hcell.1,
    ?_, hcell.2 _ (List.getLast_mem _)⟩
  rw [hlast, List.append_assoc _ cell.2.dropLast, List.dropLast_append_getLast]
  simp [padded]

/-- Trimming takes the indentation off. -/
theorem trim_padded (hspace : blank ' ' = true) {indent : Nat} {word : Chars}
    {cells : List (Nat × Chars)} (hword : IsWord blank word)
    (hcells : ∀ cell ∈ cells, IsWord blank cell.2) :
    trim blank (padded ((indent, word) :: cells)) = padded ((0, word) :: cells) := by
  obtain ⟨c, rest, hhead⟩ := List.exists_cons_of_ne_nil hword.1
  have hc : blank c = false := hword.2 c (by rw [hhead]; exact List.mem_cons_self)
  have hdrop : (padded ((indent, word) :: cells)).dropWhile blank = padded ((0, word) :: cells) := by
    have hfront : padded ((indent, word) :: cells) =
        List.replicate indent ' ' ++ padded ((0, word) :: cells) := by
      simp [padded]
    rw [hfront, List.dropWhile_append_of_pos (by simp [hspace])]
    simp [padded, hhead, hc]
  obtain ⟨front, last, hends, hlast⟩ := padded_ends 0 hword hcells
  rw [trim, hdrop, hends, trimEnd, List.rdropWhile_concat_neg _ _ _ (by simp [hlast])]

theorem notMem_padded {c : Char} (hc : c ≠ ' ') {cells : List (Nat × Chars)}
    (hcells : ∀ cell ∈ cells, c ∉ cell.2) : c ∉ padded cells := by
  intro hmem
  obtain ⟨cell, hcell, hin⟩ := List.mem_flatMap.mp hmem
  rcases List.mem_append.mp hin with hblank | hword
  · exact hc (List.eq_of_mem_replicate hblank)
  · exact hcells cell hcell hword

end Columns

end NdpOffload.Library.Text
