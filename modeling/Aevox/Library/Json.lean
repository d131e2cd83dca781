import Aevox.Library.Hex
import Mathlib.Data.List.Basic
import Mathlib.Tactic.Common

/-!
# JSON texts

A reader for the grammar of RFC 8259, on the bytes of a text, and rules for texts that are written
piece by piece. That the text is UTF-8 is not looked at.

A string is written with a function that writes its bytes; any function will do whose output is
read as the byte it was given (`readString_flatMap`). An object is written from texts that have been
written before (`reads_writeObject`). Fuel bounds the nesting and the length of a list, and a text
has enough of it by its length (`parse_writeObject`).
-/

/-- A value, with numbers as they stand in the text. -/
inductive Json where
  | null
  | bool (b : Bool)
  | number (text : List UInt8)
  | string (text : List UInt8)
  | array (items : List Json)
  | object (members : List (List UInt8 × Json))

namespace Json

/-- `'"'` -/
abbrev quote : UInt8 := 34

/-- `'\'` -/
abbrev backslash : UInt8 := 92

abbrev comma : UInt8 := 44

abbrev colon : UInt8 := 58

/-- The control characters, which strings hold in escaped form only. -/
def IsControl (b : UInt8) : Prop := b < 0x20

instance : DecidablePred IsControl := fun b ↦ inferInstanceAs (Decidable (b < 0x20))

def isSpace (b : UInt8) : Bool := b == 32 || b == 9 || b == 10 || b == 13

def skipSpace (text : List UInt8) : List UInt8 := text.dropWhile isSpace

/-! ## Strings -/

/-- What a one-letter escape stands for. -/
def unescape (ch : UInt8) : Option UInt8 :=
  if ch = 34 then some 34
  else if ch = 92 then some 92
  else if ch = 47 then some 47
  else if ch = 98 then some 8
  else if ch = 102 then some 12
  else if ch = 110 then some 10
  else if ch = 114 then some 13
  else if ch = 116 then some 9
  else none

/-- Four hexadecimal digits. -/
def readUnit : List UInt8 → Option (ℕ × List UInt8)
  | h₀ :: h₁ :: h₂ :: h₃ :: text => do
    let high ← Hex.pair h₀ h₁
    let low ← Hex.pair h₂ h₃
    some (256 * high.toNat + low.toNat, text)
  | _ => none

/-- The second half of a surrogate pair. -/
def readLow : List UInt8 → Option (ℕ × List UInt8)
  | 92 :: 117 :: text => (readUnit text).filter fun p ↦ 0xdc00 ≤ p.1 ∧ p.1 < 0xe000
  | _ => none

/-- The character behind `\u`, which may be a surrogate pair. -/
def readCodePoint (text : List UInt8) : Option (Char × List UInt8) :=
  (readUnit text).bind fun (unit, text) ↦
    if 0xd800 ≤ unit ∧ unit < 0xdc00 then
      (readLow text).map fun (low, text) ↦
        (Char.ofNat (0x10000 + (unit - 0xd800) * 0x400 + (low - 0xdc00)), text)
    else if 0xdc00 ≤ unit ∧ unit < 0xe000 then none
    else some (Char.ofNat unit, text)

/-- What a backslash and the text behind it stand for. -/
def readEscape : List UInt8 → Option (List UInt8 × List UInt8)
  | [] => none
  | ch :: text =>
    if ch = 117 then (readCodePoint text).map fun p ↦ (String.utf8EncodeChar p.1, p.2)
    else (unescape ch).map fun b ↦ ([b], text)

/-- One character of a string, or one byte of it, and what follows. -/
def readChar : List UInt8 → Option (List UInt8 × List UInt8)
  | [] => none
  | ch :: text =>
    if ch = backslash then readEscape text
    else if ch = quote ∨ IsControl ch then none
    else some ([ch], text)

/-- The string whose opening quote has been read. -/
def readString : ℕ → List UInt8 → Option (List UInt8 × List UInt8)
  | 0, _ => none
  | fuel + 1, text =>
    if text.head? = some quote then some ([], text.tail)
    else do
      let (front, text) ← readChar text
      let (s, text) ← readString fuel text
      some (front ++ s, text)

/-! ## Numbers -/

def isDigit (b : UInt8) : Bool := 48 ≤ b && b ≤ 57

/-- What follows the digits, of which there is at least one. -/
def digits : List UInt8 → Option (List UInt8)
  | [] => none
  | ch :: text => if isDigit ch then some (text.dropWhile isDigit) else none

/-- What follows the integer part, which has no leading zero. -/
def integer : List UInt8 → Option (List UInt8)
  | [] => none
  | ch :: text => if ch = 48 then some text else digits (ch :: text)

def fraction : List UInt8 → Option (List UInt8)
  | 46 :: text => digits text
  | text => some text

def exponent : List UInt8 → Option (List UInt8)
  | 101 :: text | 69 :: text =>
    match text with
    | 43 :: text | 45 :: text => digits text
    | text => digits text
  | text => some text

/-- The text is a number. -/
def isNumber (text : List UInt8) : Bool :=
  let text := if text.head? = some 45 then text.tail else text
  ((integer text).bind fraction).bind exponent == some []

def isNumberByte (b : UInt8) : Bool :=
  isDigit b || b == 43 || b == 45 || b == 46 || b == 69 || b == 101

def readNumber (text : List UInt8) : Option (Json × List UInt8) :=
  if isNumber (text.takeWhile isNumberByte) then
    some (number (text.takeWhile isNumberByte), text.dropWhile isNumberByte)
  else none

/-! ## Values -/

mutual

/-- The value a text begins with, and what follows. -/
def readValue : ℕ → List UInt8 → Option (Json × List UInt8)
  | 0, _ => none
  | fuel + 1, text =>
    match skipSpace text with
    | 110 :: 117 :: 108 :: 108 :: text => some (null, text)
    | 116 :: 114 :: 117 :: 101 :: text => some (bool true, text)
    | 102 :: 97 :: 108 :: 115 :: 101 :: text => some (bool false, text)
    | 34 :: text => (readString text.length text).map fun p ↦ (string p.1, p.2)
    | 91 :: text =>
      match skipSpace text with
      | 93 :: text => some (array [], text)
      | text => (readItems fuel text).map fun p ↦ (array p.1, p.2)
    | 123 :: text =>
      match skipSpace text with
      | 125 :: text => some (object [], text)
      | text => (readMembers fuel text).map fun p ↦ (object p.1, p.2)
    | text => readNumber text

/-- The items of an array, up to its end. -/
def readItems : ℕ → List UInt8 → Option (List Json × List UInt8)
  | 0, _ => none
  | fuel + 1, text => do
    let (value, text) ← readValue fuel text
    match skipSpace text with
    | 44 :: text => (readItems fuel text).map fun p ↦ (value :: p.1, p.2)
    | 93 :: text => some ([value], text)
    | _ => none

/-- The members of an object, up to its end. -/
def readMembers : ℕ → List UInt8 → Option (List (List UInt8 × Json) × List UInt8)
  | 0, _ => none
  | fuel + 1, text =>
    match skipSpace text with
    | 34 :: text => do
      let (key, text) ← readString text.length text
      match skipSpace text with
      | 58 :: text => do
        let (value, text) ← readValue fuel text
        match skipSpace text with
        | 44 :: text => (readMembers fuel text).map fun p ↦ ((key, value) :: p.1, p.2)
        | 125 :: text => some ([(key, value)], text)
        | _ => none
      | _ => none
    | _ => none

end

/-- The value of a text, if it is one. -/
def parse (text : List UInt8) : Option Json :=
  match readValue (text.length + 1) text with
  | some (value, rest) => if skipSpace rest = [] then some value else none
  | none => none

/-- The text of the one member of an object that has the key. -/
def stringOf (key : List UInt8) : Json → Option (List UInt8)
  | object members =>
    match members.filter (·.1 = key) with
    | [(_, string text)] => some text
    | _ => none
  | _ => none

/-! ## Reading what has been written -/

/-- With that much fuel the text is read as the value, wherever no number goes on behind it. -/
def Reads (n : ℕ) (text : List UInt8) (value : Json) : Prop :=
  ∀ fuel rest, n ≤ fuel → (∀ b ∈ rest.head?, isNumberByte b = false) →
    readValue fuel (text ++ rest) = some (value, rest)

theorem skipSpace_cons {b : UInt8} (h : isSpace b = false) (text : List UInt8) :
    skipSpace (b :: text) = b :: text :=
  List.dropWhile_cons_of_neg (Bool.not_eq_true _ ▸ h)

theorem parse_of_reads {n : ℕ} {text : List UInt8} {value : Json} (h : Reads n text value)
    (hn : n ≤ text.length + 1) : parse text = some value := by
  have hread := h _ [] hn (fun b hb ↦ by cases hb)
  rw [List.append_nil] at hread
  rw [parse, hread]
  rfl

/-! ### Strings -/

theorem readUnit_append {text t : List UInt8} {n : ℕ} (h : readUnit text = some (n, t))
    (rest : List UInt8) : readUnit (text ++ rest) = some (n, t ++ rest) := by
  match text, h with
  | h₀ :: h₁ :: h₂ :: h₃ :: text, h =>
    simp only [readUnit, Option.bind_eq_bind, Option.bind_eq_some_iff, Option.some.injEq,
      Prod.mk.injEq] at h
    obtain ⟨high, hhigh, low, hlow, rfl, rfl⟩ := h
    simp only [List.cons_append, readUnit, hhigh, hlow, Option.bind_eq_bind, Option.bind_some]

theorem readLow_append {text t : List UInt8} {n : ℕ} (h : readLow text = some (n, t))
    (rest : List UInt8) : readLow (text ++ rest) = some (n, t ++ rest) := by
  unfold readLow at h
  split at h
  · obtain ⟨hunit, hrange⟩ := Option.filter_eq_some_iff.mp h
    exact Option.filter_eq_some_iff.mpr ⟨readUnit_append hunit rest, hrange⟩
  · cases h

theorem readCodePoint_append {text t : List UInt8} {c : Char}
    (h : readCodePoint text = some (c, t)) (rest : List UInt8) :
    readCodePoint (text ++ rest) = some (c, t ++ rest) := by
  obtain ⟨⟨unit, text'⟩, hunit, h⟩ := Option.bind_eq_some_iff.mp h
  refine Option.bind_eq_some_iff.mpr ⟨(unit, text' ++ rest), readUnit_append hunit rest, ?_⟩
  simp only at h ⊢
  by_cases hhigh : 0xd800 ≤ unit ∧ unit < 0xdc00
  · rw [if_pos hhigh] at h ⊢
    obtain ⟨⟨low, text''⟩, hlow, heq⟩ := Option.map_eq_some_iff.mp h
    obtain ⟨rfl, rfl⟩ := Prod.mk.inj heq
    rw [readLow_append hlow, Option.map_some]
  · rw [if_neg hhigh] at h ⊢
    by_cases hlow : 0xdc00 ≤ unit ∧ unit < 0xe000
    · rw [if_pos hlow] at h
      cases h
    · rw [if_neg hlow] at h ⊢
      obtain ⟨rfl, rfl⟩ := Prod.mk.inj (Option.some.inj h)
      rfl

theorem readEscape_append {text s t : List UInt8} (h : readEscape text = some (s, t))
    (rest : List UInt8) : readEscape (text ++ rest) = some (s, t ++ rest) := by
  rcases text with _ | ⟨ch, text⟩
  · cases h
  · rw [readEscape] at h
    rw [List.cons_append, readEscape]
    by_cases hch : ch = 117
    · rw [if_pos hch] at h ⊢
      obtain ⟨⟨c, t'⟩, hc, heq⟩ := Option.map_eq_some_iff.mp h
      obtain ⟨rfl, rfl⟩ := Prod.mk.inj heq
      rw [readCodePoint_append hc, Option.map_some]
    · rw [if_neg hch] at h ⊢
      obtain ⟨b, hb, heq⟩ := Option.map_eq_some_iff.mp h
      obtain ⟨rfl, rfl⟩ := Prod.mk.inj heq
      rw [hb, Option.map_some]

/-- **What is read does not depend on what follows.** -/
theorem readChar_append {text s t : List UInt8} (h : readChar text = some (s, t))
    (rest : List UInt8) : readChar (text ++ rest) = some (s, t ++ rest) := by
  rcases text with _ | ⟨ch, text⟩
  · cases h
  · rw [readChar] at h
    rw [List.cons_append, readChar]
    by_cases hescape : ch = backslash
    · rw [if_pos hescape] at h ⊢
      exact readEscape_append h rest
    · rw [if_neg hescape] at h ⊢
      by_cases hch : ch = quote ∨ IsControl ch
      · rw [if_pos hch] at h
        cases h
      · rw [if_neg hch] at h ⊢
        obtain ⟨rfl, rfl⟩ := Prod.mk.inj (Option.some.inj h)
        rfl

theorem head?_ne_quote_of_readChar {text : List UInt8} {p : List UInt8 × List UInt8}
    (h : readChar text = some p) : text.head? ≠ some quote := by
  intro hquote
  obtain ⟨text, rfl⟩ := List.head?_eq_some_iff.mp hquote
  rw [readChar, if_neg (by decide), if_pos (Or.inl rfl)] at h
  cases h

variable {f : UInt8 → List UInt8}

/-- **A string is read back** if each of its bytes is. -/
theorem readString_flatMap {s : List UInt8}
    (hf : ∀ b ∈ s, readChar (f b) = some ([b], [])) {fuel : ℕ} {rest : List UInt8}
    (hfuel : (s.flatMap f).length < fuel) :
    readString fuel (s.flatMap f ++ quote :: rest) = some (s, rest) := by
  induction s generalizing fuel with
  | nil =>
    obtain ⟨fuel, rfl⟩ := Nat.exists_eq_add_one_of_ne_zero (Nat.ne_zero_of_lt hfuel)
    rw [List.flatMap_nil, List.nil_append, readString, List.head?_cons, if_pos rfl, List.tail_cons]
  | cons b s ih =>
    obtain ⟨fuel, rfl⟩ := Nat.exists_eq_add_one_of_ne_zero (Nat.ne_zero_of_lt hfuel)
    rw [List.forall_mem_cons] at hf
    have hread := readChar_append hf.1 (s.flatMap f ++ quote :: rest)
    have hne : f b ≠ [] := fun hnil ↦ by
      rw [hnil] at hf
      cases hf.1
    have hpos := List.length_pos_of_ne_nil hne
    rw [List.flatMap_cons, List.length_append] at hfuel
    rw [List.flatMap_cons, List.append_assoc, readString,
      if_neg (head?_ne_quote_of_readChar hread), hread]
    have hrest : readString fuel (s.flatMap f ++ quote :: rest) = some (s, rest) :=
      ih hf.2 (by omega)
    simp only [Option.bind_eq_bind, Option.bind_some, List.nil_append, hrest,
      List.singleton_append]

/-- A byte that needs no escape. -/
def IsPlain (b : UInt8) : Prop := b ≠ backslash ∧ b ≠ quote ∧ ¬IsControl b

instance : DecidablePred IsPlain := fun b ↦
  inferInstanceAs (Decidable (b ≠ backslash ∧ b ≠ quote ∧ ¬IsControl b))

theorem readChar_of_isPlain {b : UInt8} (h : IsPlain b) : readChar [b] = some ([b], []) := by
  rw [readChar, if_neg h.1, if_neg (not_or.mpr h.2)]

theorem readString_plain {s : List UInt8} (h : ∀ b ∈ s, IsPlain b) {fuel : ℕ} {rest : List UInt8}
    (hfuel : s.length < fuel) : readString fuel (s ++ quote :: rest) = some (s, rest) := by
  have hsame : (s.flatMap fun b ↦ [b]) = s := List.flatMap_singleton' s
  have hread : readString fuel ((s.flatMap fun b ↦ [b]) ++ quote :: rest) = some (s, rest) :=
    readString_flatMap (fun b hb ↦ readChar_of_isPlain (h b hb)) (by rwa [hsame])
  rwa [hsame] at hread

/-- A string, written byte by byte. -/
def writeString (f : UInt8 → List UInt8) (s : List UInt8) : List UInt8 :=
  quote :: s.flatMap f ++ [quote]

theorem reads_writeString {s : List UInt8} (hf : ∀ b ∈ s, readChar (f b) = some ([b], [])) :
    Reads 1 (writeString f s) (string s) := by
  intro fuel rest hfuel _
  obtain ⟨fuel, rfl⟩ := Nat.exists_eq_add_one_of_ne_zero (Nat.ne_zero_of_lt hfuel)
  have hread : readString (s.flatMap f ++ quote :: rest).length (s.flatMap f ++ quote :: rest) =
      some (s, rest) :=
    readString_flatMap hf (by
      rw [List.length_append, List.length_cons]
      omega)
  have htext : writeString f s ++ rest = quote :: (s.flatMap f ++ quote :: rest) := by
    simp [writeString]
  rw [htext, readValue, skipSpace_cons (by decide)]
  simp only [hread, Option.map_some]

/-! ### Numbers -/

/-- A byte that goes on a number begins neither space nor another value. -/
theorem ne_of_isNumberByte {b : UInt8} (h : isNumberByte b = true) :
    isSpace b = false ∧ b ≠ 110 ∧ b ≠ 116 ∧ b ≠ 102 ∧ b ≠ 34 ∧ b ≠ 91 ∧ b ≠ 123 := by
  have hall : ∀ b : UInt8, isNumberByte b = true →
      isSpace b = false ∧ b ≠ 110 ∧ b ≠ 116 ∧ b ≠ 102 ∧ b ≠ 34 ∧ b ≠ 91 ∧ b ≠ 123 :=
    Hex.forall_byte (by decide +kernel)
  exact hall b h

theorem reads_number {text : List UInt8} (hnumber : isNumber text = true)
    (hbytes : ∀ b ∈ text, isNumberByte b = true) : Reads 1 text (number text) := by
  intro fuel rest hfuel hrest
  obtain ⟨fuel, rfl⟩ := Nat.exists_eq_add_one_of_ne_zero (Nat.ne_zero_of_lt hfuel)
  have hnil : rest.takeWhile isNumberByte = [] ∧ rest.dropWhile isNumberByte = rest := by
    rcases rest with _ | ⟨b, rest⟩
    · exact ⟨rfl, rfl⟩
    · have hb := Bool.not_eq_true _ ▸ hrest b rfl
      exact ⟨List.takeWhile_cons_of_neg hb, List.dropWhile_cons_of_neg hb⟩
  have hread : readNumber (text ++ rest) = some (number text, rest) := by
    rw [readNumber, List.takeWhile_append_of_pos hbytes, List.dropWhile_append_of_pos hbytes,
      hnil.1, hnil.2, List.append_nil, if_pos hnumber]
  obtain ⟨b, text, rfl⟩ : ∃ b tail, text = b :: tail :=
    List.exists_cons_of_ne_nil fun hempty ↦ by rw [hempty] at hnumber; cases hnumber
  obtain ⟨hspace, hn, ht, hf, hquote, harray, hobject⟩ :=
    ne_of_isNumberByte (hbytes b List.mem_cons_self)
  rw [← hread, readValue, List.cons_append, skipSpace_cons hspace]
  simp [hn, ht, hf, hquote, harray, hobject]

/-! ### Objects -/

/-- A member and how its value is written. -/
structure Member (n : ℕ) where
  key : List UInt8
  text : List UInt8
  value : Json
  plain : ∀ b ∈ key, IsPlain b
  reads : Reads n text value

variable {n : ℕ}

def Member.write (m : Member n) : List UInt8 := quote :: m.key ++ quote :: colon :: m.text

/-- An object with at least one member, without spaces. -/
def writeObject (m : Member n) (ms : List (Member n)) : List UInt8 :=
  123 :: m.write ++ ms.flatMap (fun m ↦ comma :: m.write) ++ [125]

theorem readMembers_cons (m : Member n) {fuel : ℕ} (hfuel : n ≤ fuel) {b : UInt8}
    (hb : b = comma ∨ b = 125) (rest : List UInt8) :
    readMembers (fuel + 1) (m.write ++ b :: rest) =
      if b = comma then
        (readMembers fuel rest).map fun p ↦ ((m.key, m.value) :: p.1, p.2)
      else some ([(m.key, m.value)], rest) := by
  have htext : m.write ++ b :: rest =
      quote :: (m.key ++ quote :: colon :: (m.text ++ b :: rest)) := by
    simp [Member.write]
  have hkey : readString (m.key ++ quote :: colon :: (m.text ++ b :: rest)).length
      (m.key ++ quote :: colon :: (m.text ++ b :: rest)) =
        some (m.key, colon :: (m.text ++ b :: rest)) :=
    readString_plain m.plain (by
      rw [List.length_append, List.length_cons]
      omega)
  have hvalue := m.reads fuel (b :: rest) hfuel (by
    rintro _ ⟨⟩
    rcases hb with rfl | rfl <;> rfl)
  rw [htext, readMembers, skipSpace_cons (by decide)]
  simp only [hkey, Option.bind_eq_bind, Option.bind_some, hvalue,
    skipSpace_cons (b := colon) (by decide)]
  rcases hb with rfl | rfl
  · rw [skipSpace_cons (by decide), if_pos rfl]
    rfl
  · rw [skipSpace_cons (by decide), if_neg (by decide)]
    rfl

theorem readMembers_write (m : Member n) (ms : List (Member n)) {fuel : ℕ}
    (hfuel : n + ms.length ≤ fuel) (rest : List UInt8) :
    readMembers (fuel + 1) (m.write ++ (ms.flatMap (fun m ↦ comma :: m.write) ++ 125 :: rest)) =
      some ((m :: ms).map (fun m ↦ (m.key, m.value)), rest) := by
  induction ms generalizing m fuel with
  | nil =>
    rw [List.flatMap_nil, List.nil_append, readMembers_cons m hfuel (Or.inr rfl),
      if_neg (by decide)]
    rfl
  | cons m' ms ih =>
    rw [List.length_cons] at hfuel
    obtain ⟨fuel, rfl⟩ := Nat.exists_eq_add_one_of_ne_zero (Nat.ne_zero_of_lt hfuel)
    rw [List.flatMap_cons, List.cons_append, List.cons_append, List.append_assoc,
      readMembers_cons m (by omega) (Or.inl rfl), if_pos rfl, ih m' (by omega), Option.map_some]
    rfl

/-- **An object is read back** from members that are. -/
theorem reads_writeObject (m : Member n) (ms : List (Member n)) :
    Reads (n + ms.length + 2) (writeObject m ms)
      (object ((m :: ms).map fun m ↦ (m.key, m.value))) := by
  intro fuel rest hfuel _
  obtain ⟨fuel, rfl⟩ : ∃ k, fuel = k + 2 := ⟨fuel - 2, by omega⟩
  have htext : writeObject m ms ++ rest =
      123 :: (m.write ++ (ms.flatMap (fun m ↦ comma :: m.write) ++ 125 :: rest)) := by
    simp [writeObject]
  have hread : readMembers (fuel + 1)
      (m.write ++ (ms.flatMap (fun m ↦ comma :: m.write) ++ 125 :: rest)) =
        some ((m :: ms).map (fun m ↦ (m.key, m.value)), rest) :=
    readMembers_write m ms (by omega) rest
  obtain ⟨tail, htail⟩ : ∃ tail,
      m.write ++ (ms.flatMap (fun m ↦ comma :: m.write) ++ 125 :: rest) = quote :: tail := ⟨_, rfl⟩
  rw [htail] at hread
  rw [htext, htail, readValue, skipSpace_cons (by decide)]
  simp only [skipSpace_cons (b := quote) (by decide)]
  exact congrArg (Option.map fun p ↦ (object p.1, p.2)) hread

theorem length_writeObject (m : Member n) (ms : List (Member n)) :
    ms.length + 2 ≤ (writeObject m ms).length := by
  have hms : ms.length ≤ (ms.flatMap fun m ↦ comma :: m.write).length := by
    induction ms with
    | nil => exact le_refl _
    | cons m' ms ih =>
      rw [List.flatMap_cons, List.length_append, List.length_cons, List.length_cons]
      omega
  rw [writeObject, List.length_append, List.length_append, List.length_cons, List.length_singleton]
  omega

/-- An object of strings and numbers has enough fuel. -/
theorem parse_writeObject (m : Member 1) (ms : List (Member 1)) :
    parse (writeObject m ms) = some (object ((m :: ms).map fun m ↦ (m.key, m.value))) :=
  parse_of_reads (reads_writeObject m ms) (by
    have hlen := length_writeObject m ms
    omega)

/-! ### Members -/

theorem stringOf_of_mem {key text : List UInt8} {members : List (List UInt8 × Json)}
    (hnodup : (members.map Prod.fst).Nodup) (hmem : (key, string text) ∈ members) :
    stringOf key (object members) = some text := by
  have hfilter : members.filter (·.1 = key) = [(key, string text)] := by
    induction members with
    | nil => cases hmem
    | cons m members ih =>
      rw [List.map_cons, List.nodup_cons] at hnodup
      rcases List.mem_cons.mp hmem with rfl | hmem
      · have hrest : members.filter (·.1 = key) = [] :=
          List.filter_eq_nil_iff.mpr fun m hm hkey ↦
            hnodup.1 (List.mem_map.mpr ⟨m, hm, of_decide_eq_true hkey⟩)
        rw [List.filter_cons, if_pos (decide_eq_true rfl), hrest]
      · have hkey : m.1 ≠ key := fun hkey ↦ hnodup.1 (hkey ▸ List.mem_map_of_mem hmem)
        rw [List.filter_cons, if_neg (by simpa using hkey), ih hnodup.2 hmem]
  rw [stringOf, hfilter]

theorem stringOf_of_not_mem {key : List UInt8} {members : List (List UInt8 × Json)}
    (h : key ∉ members.map Prod.fst) : stringOf key (object members) = none := by
  have hfilter : members.filter (·.1 = key) = [] :=
    List.filter_eq_nil_iff.mpr fun m hm hkey ↦
      h (of_decide_eq_true hkey ▸ List.mem_map_of_mem hm)
  rw [stringOf, hfilter]

/-! ### Properties of what has been written -/

section Pieces

variable {P : List UInt8 → Prop} (happend : ∀ s t, P s → P t → P (s ++ t))
  (hmark : ∀ b ∈ [quote, comma, colon, 123, 125], P [b])

include happend hmark

theorem writeString_of_flatMap {s : List UInt8} (h : P (s.flatMap f)) : P (writeString f s) := by
  have hquote : P [quote] := hmark _ (by decide)
  exact happend _ _ (happend _ _ hquote h) hquote

theorem Member.write_of_pieces {m : Member n} (hkey : P m.key) (htext : P m.text) : P m.write := by
  have hquote : P [quote] := hmark _ (by decide)
  exact happend _ _ (happend _ _ hquote hkey)
    (happend _ _ hquote (happend _ _ (hmark _ (by decide)) htext))

/-- **What holds of the pieces holds of the object**, if it does of the marks between them. -/
theorem writeObject_of_pieces {m : Member n} {ms : List (Member n)}
    (h : ∀ m' ∈ m :: ms, P m'.key ∧ P m'.text) : P (writeObject m ms) := by
  have hopen : P [123] := hmark _ (by decide)
  have hclose : P [125] := hmark _ (by decide)
  rw [List.forall_mem_cons] at h
  have hfront : P (123 :: m.write) :=
    happend _ _ hopen (Member.write_of_pieces happend hmark h.1.1 h.1.2)
  rw [writeObject]
  refine happend _ _ ?_ hclose
  obtain ⟨-, hms⟩ := h
  generalize 123 :: m.write = front at hfront
  induction ms generalizing front with
  | nil => rwa [List.flatMap_nil, List.append_nil]
  | cons m' ms ih =>
    rw [List.forall_mem_cons] at hms
    have hmember : P (comma :: m'.write) := happend _ _ (hmark _ (by decide))
      (Member.write_of_pieces happend hmark hms.1.1 hms.1.2)
    rw [List.flatMap_cons, ← List.append_assoc]
    exact ih hms.2 _ (happend _ _ hfront hmember)

end Pieces

end Json
