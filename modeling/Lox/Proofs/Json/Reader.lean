import Lox.Proofs.Json.Grammar

/-!
# Reading JSON

`Json.read?` reads a JSON text from left to right.  Whatever the grammar derives is read, and as the
value that it stands for (`Json.read?_of_spells`), so a text stands for one value at most.

A reader of a part is given a text that begins with the part, and returns what the part stands for
and the rest of the text.  Fuel bounds the nesting and the length of lists, and a bound above the
length of the text is never reached.
-/

namespace Lox.Json

/-- What reads a part of a text from its front. -/
abbrev Reader (α : Type) := List Char → Option (α × List Char)

/-- Behind the blanks in front. -/
def skipBlank (text : List Char) : List Char :=
  text.dropWhile isBlank

/-- Behind this character, if it comes first. -/
def after? (c : Char) (text : List Char) : Option (List Char) :=
  if text.head? = some c then some text.tail else none

/-! ## Strings -/

/-- Four hexadecimal digits. -/
def fourHex : Reader Nat := fun text =>
  if (text.take 4).length = 4 then (hexValue 0 (text.take 4)).map (·, text.drop 4) else none

/-- The second half of a surrogate pair, behind the first. -/
def secondHalf (high : Nat) : Reader Char := fun text => do
  let (low, rest) ← fourHex (← after? 'u' (← after? '\\' text))
  if 0xDC00 ≤ low ∧ low < 0xE000 then some (.ofNat (paired high low), rest) else none

/-- A code behind its backslash and letter. -/
def codeEscape : Reader Char := fun text => do
  let (code, rest) ← fourHex text
  if 0xD800 ≤ code ∧ code < 0xDC00 then secondHalf code rest
  else if code.isValidChar then some (.ofNat code, rest) else none

/-- A character of a string. -/
def character : Reader Char
  | [] => none
  | c :: rest =>
    if c = '\\' then
      match rest with
      | [] => none
      | letter :: rest =>
        if letter = 'u' then codeEscape rest else (shortEscapes.lookup letter).map (·, rest)
    else if 0x20 ≤ c.toNat then some (c, rest) else none

/-- What is left of a string behind its opening quote. -/
def content : Nat → Reader (List Char)
  | 0, _ => none
  | fuel + 1, text =>
    if text.head? = some '"' then some ([], text.tail)
    else do
      let (c, rest) ← character text
      let (cs, rest) ← content fuel rest
      some (c :: cs, rest)

/-! ## Numbers -/

/-- One or more digits. -/
def digits : Reader (List Char) := fun text =>
  if (text.takeWhile Char.isDigit).isEmpty then none
  else some (text.takeWhile Char.isDigit, text.dropWhile Char.isDigit)

/-- The digits before a point. -/
def whole : Reader (List Char) := fun text => do
  let (ds, rest) ← digits text
  if ds.head? = some '0' ∧ ds ≠ ['0'] then none else some (ds, rest)

/-- The digits behind a point, if there is one. -/
def fraction : Reader (List Char) := fun text =>
  match after? '.' text with
  | none => some ([], text)
  | some rest => digits rest

/-- A power of ten, if there is one. -/
def power : Reader Int := fun text =>
  match after? 'e' text <|> after? 'E' text with
  | none => some (0, text)
  | some rest =>
    match after? '-' rest with
    | some rest => (digits rest).map fun (ds, rest) => (-Nat.ofDigitChars 10 ds 0, rest)
    | none => (digits ((after? '+' rest).getD rest)).map fun (ds, rest) =>
        (Nat.ofDigitChars 10 ds 0, rest)

/-- A number without its sign. -/
def magnitude : Reader ℚ := fun text => do
  let (ds, rest) ← whole text
  let (behind, rest) ← fraction rest
  let (exponent, rest) ← power rest
  some (Number.decimal ds behind * 10 ^ exponent, rest)

/-! ## Values -/

/-- A value that is spelled in one way. -/
def word (spelling : List Char) (v : Json) : Reader Json := fun text =>
  if spelling.isPrefixOf text then some (v, text.drop spelling.length) else none

/-- A value with blanks around it. -/
def element (value : Reader Json) : Reader Json := fun text => do
  let (v, rest) ← value (skipBlank text)
  some (v, skipBlank rest)

/-- One or more items with commas between them. -/
def separated {α : Type} (item : Reader α) : Nat → Reader (List α)
  | 0, _ => none
  | fuel + 1, text => do
    let (first, rest) ← item text
    match after? ',' rest with
    | none => some ([first], rest)
    | some rest => do
      let (others, rest) ← separated item fuel rest
      some (first :: others, rest)

/-- A string, a colon and an element. -/
def member (value : Reader Json) (fuel : Nat) : Reader (List Char × Json) := fun text => do
  let (key, rest) ← content fuel (← after? '"' (skipBlank text))
  let (v, rest) ← element value (← after? ':' (skipBlank rest))
  some ((key, v), rest)

/-- Nothing but blanks before a closing bracket, or what an open bracket is followed by. -/
def closed {α : Type} (close : Char) (some? : Reader (List α)) : Reader (List α) := fun text =>
  match after? close (skipBlank text) with
  | some rest => some ([], rest)
  | none => do
    let (found, rest) ← some? text
    some (found, ← after? close rest)

/-- A value. -/
def value : Nat → Reader Json
  | 0, _ => none
  | _ + 1, [] => none
  | fuel + 1, c :: rest =>
    if c = 'n' then word "null".toList .null (c :: rest)
    else if c = 't' then word "true".toList (.bool true) (c :: rest)
    else if c = 'f' then word "false".toList (.bool false) (c :: rest)
    else if c = '"' then (content fuel rest).map fun (text, rest) => (.string text, rest)
    else if c = '[' then
      (closed ']' (separated (element (value fuel)) fuel) rest).map fun (vs, rest) =>
        (.array vs, rest)
    else if c = '\x7b' then
      (closed '\x7d' (separated (member (value fuel) fuel) fuel) rest).map fun (ms, rest) =>
        (.object ms, rest)
    else if c = '-' then (magnitude rest).map fun (q, rest) => (.number true q, rest)
    else (magnitude (c :: rest)).map fun (q, rest) => (.number false q, rest)

/-- The value that a text stands for, if it does for any. -/
def read? (text : List Char) : Option Json :=
  match element (value (text.length + 1)) text with
  | some (v, []) => some v
  | _ => none

/-! ## Whatever is derived is read -/

variable {c : Char} {cs text rest : List Char}

theorem after?_cons : after? c (c :: rest) = some rest := if_pos rfl

theorem after?_of_ne (h : text.head? ≠ some c) : after? c text = none := if_neg h

theorem skipBlank_append (h : Blank text) : skipBlank (text ++ rest) = skipBlank rest :=
  List.dropWhile_append_of_pos h

theorem skipBlank_of_head? (h : ∀ c ∈ rest.head?, isBlank c = false) : skipBlank rest = rest := by
  cases rest with
  | nil => rfl
  | cons c cs => exact List.dropWhile_cons_of_neg (by simp [h c rfl])

/-! ### Strings -/

theorem fourHex_append {ds : List Char} {code : Nat} (h : FourHex ds code) :
    fourHex (ds ++ rest) = some (code, rest) := by
  obtain ⟨hlength, hvalue⟩ := h
  have htake : (ds ++ rest).take 4 = ds := by rw [← hlength, List.take_left]
  have hdrop : (ds ++ rest).drop 4 = rest := by rw [← hlength, List.drop_left]
  unfold fourHex
  rw [htake, hdrop, if_pos hlength, hvalue]
  rfl

theorem lookup_shortEscapes : ∀ p ∈ shortEscapes,
    p.1 ≠ 'u' ∧ shortEscapes.lookup p.1 = some p.2 := by
  decide

/-- **A character is read** in each of its texts. -/
theorem character_append (h : Escaped c text) : character (text ++ rest) = some (c, rest) := by
  cases h with
  | plain hc _ hbackslash =>
    show (if c = '\\' then _ else _) = _
    rw [if_neg hbackslash, if_pos hc]
    rfl
  | @short letter _ hmem =>
    obtain ⟨hletter, hlookup⟩ := lookup_shortEscapes _ hmem
    show (if letter = 'u' then _ else _) = _
    rw [if_neg hletter, hlookup]
    rfl
  | @code digits code hdigits hvalid =>
    have hpair : ¬ (0xD800 ≤ code ∧ code < 0xDC00) := by
      unfold Nat.isValidChar at hvalid
      omega
    show codeEscape (digits ++ rest) = _
    unfold codeEscape
    rw [fourHex_append hdigits]
    exact (if_neg hpair).trans (if_pos hvalid)
  | @pair digits digits' high low hhigh hlow hhigh' hlow' =>
    show codeEscape (digits ++ '\\' :: 'u' :: digits' ++ rest) = _
    unfold codeEscape
    rw [List.append_assoc, fourHex_append hhigh]
    refine (if_pos hhigh').trans ?_
    show (fourHex (digits' ++ rest)).bind _ = _
    rw [fourHex_append hlow]
    exact if_pos hlow'

/-- No text of a character is empty or begins with the quote that ends the string. -/
theorem Escaped.starts (h : Escaped c text) : ∃ d ds, text = d :: ds ∧ d ≠ '"' := by
  cases h with
  | plain _ hquote _ => exact ⟨_, _, rfl, hquote⟩
  | short => exact ⟨_, _, rfl, by decide⟩
  | code => exact ⟨_, _, rfl, by decide⟩
  | pair => exact ⟨_, _, rfl, by decide⟩

/-- **The content of a string is read** up to its closing quote. -/
theorem content_append (h : Content cs text) : ∀ {fuel : Nat}, text.length < fuel →
    content fuel (text ++ '"' :: rest) = some (cs, rest) := by
  induction h with
  | nil =>
    intro fuel hfuel
    obtain ⟨fuel, rfl⟩ := Nat.exists_eq_add_of_lt hfuel
    rfl
  | @cons c cs front text hc hcs ih =>
    intro fuel hfuel
    obtain ⟨d, ds, rfl, hd⟩ := hc.starts
    rw [List.length_append, List.length_cons] at hfuel
    obtain ⟨fuel, rfl⟩ : ∃ k, fuel = k + 1 := ⟨fuel - 1, by omega⟩
    have hquote : (d :: ds ++ text ++ '"' :: rest).head? ≠ some '"' := by
      simpa using hd
    rw [content, if_neg hquote, List.append_assoc, character_append hc]
    show (content fuel (text ++ '"' :: rest)).bind _ = _
    rw [ih (by omega)]
    rfl

/-! ### Numbers -/

/-- Whether no character of a kind comes next. -/
def NoNext (p : Char → Prop) (rest : List Char) : Prop :=
  ∀ c ∈ rest.head?, ¬ p c

theorem digits_append {ds : List Char} (h : Digits ds) (hrest : NoNext (·.isDigit = true) rest) :
    digits (ds ++ rest) = some (ds, rest) := by
  have hend : rest.takeWhile Char.isDigit = [] ∧ rest.dropWhile Char.isDigit = rest := by
    cases rest with
    | nil => exact ⟨rfl, rfl⟩
    | cons c cs =>
      have hc : ¬ c.isDigit = true := hrest c rfl
      exact ⟨List.takeWhile_cons_of_neg hc, List.dropWhile_cons_of_neg hc⟩
  unfold digits
  rw [List.takeWhile_append_of_pos h.2, List.dropWhile_append_of_pos h.2, hend.1, hend.2,
    List.append_nil, if_neg (by simpa using h.1)]

theorem whole_append {ds : List Char} (h : Whole ds) (hrest : NoNext (·.isDigit = true) rest) :
    whole (ds ++ rest) = some (ds, rest) := by
  unfold whole
  rw [digits_append h.1 hrest]
  exact if_neg fun hzero => hzero.2 (h.2 hzero.1)

theorem fraction_append {ds : List Char} (h : Fraction ds text)
    (hrest : NoNext (fun c => c.isDigit = true ∨ c = '.') rest) :
    fraction (text ++ rest) = some (ds, rest) := by
  unfold fraction
  cases h with
  | none =>
    have hpoint : rest.head? ≠ some '.' := fun h => hrest '.' h (.inr rfl)
    rw [List.nil_append, after?_of_ne hpoint]
  | some hds =>
    rw [List.cons_append, after?_cons]
    exact digits_append hds fun c hc hdigit => hrest c hc (.inl hdigit)

theorem head?_ne_of_digits {ds : List Char} (h : Digits ds) (hc : c.isDigit = false) :
    (ds ++ rest).head? ≠ some c := by
  obtain ⟨d, ds, rfl⟩ := List.exists_cons_of_ne_nil h.1
  intro heq
  have hd := h.2 d List.mem_cons_self
  rw [List.cons_append, List.head?_cons, Option.some.injEq] at heq
  rw [heq, hc] at hd
  cases hd

theorem after?_exponent {e : Char} (he : e = 'e' ∨ e = 'E') :
    (after? 'e' (e :: rest) <|> after? 'E' (e :: rest)) = some rest := by
  rcases he with rfl | rfl <;> rfl

theorem power_append {k : Int} (h : Power k text)
    (hrest : NoNext (fun c => c.isDigit = true ∨ c = 'e' ∨ c = 'E') rest) :
    power (text ++ rest) = some (k, rest) := by
  have hdigits {ds : List Char} (hds : Digits ds) : digits (ds ++ rest) = some (ds, rest) :=
    digits_append hds fun c hc hdigit => hrest c hc (.inl hdigit)
  unfold power
  cases h with
  | none =>
    have he : rest.head? ≠ some 'e' := fun h => hrest 'e' h (.inr (.inl rfl))
    have hE : rest.head? ≠ some 'E' := fun h => hrest 'E' h (.inr (.inr rfl))
    rw [List.nil_append, after?_of_ne he, after?_of_ne hE]
    rfl
  | plain he hds =>
    rw [List.cons_append, after?_exponent he]
    dsimp only
    rw [after?_of_ne (head?_ne_of_digits hds rfl), after?_of_ne (head?_ne_of_digits hds rfl)]
    dsimp only
    rw [Option.getD_none, hdigits hds]
    rfl
  | up he hds =>
    rw [List.cons_append, after?_exponent he]
    show (digits (_ ++ rest)).map _ = _
    rw [hdigits hds]
    rfl
  | down he hds =>
    rw [List.cons_append, after?_exponent he]
    show (digits (_ ++ rest)).map _ = _
    rw [hdigits hds]
    rfl

/-- Whether a value is over: a blank comes next, or what stands behind a value, or nothing. -/
def Delimits (rest : List Char) : Prop :=
  ∀ c ∈ rest.head?, isBlank c = true ∨ c = ',' ∨ c = ']' ∨ c = '\x7d'

theorem Delimits.noNext {p : Char → Prop} (h : Delimits rest)
    (hp : ∀ c, isBlank c = true ∨ c = ',' ∨ c = ']' ∨ c = '\x7d' → ¬ p c) : NoNext p rest :=
  fun c hc => hp c (h c hc)

/-- No character that ends a value continues a number. -/
theorem not_numeral_of_delimits (h : isBlank c = true ∨ c = ',' ∨ c = ']' ∨ c = '\x7d') :
    ¬ (c.isDigit = true ∨ c = '.' ∨ c = 'e' ∨ c = 'E') := by
  have hcases : c = ' ' ∨ c = '\t' ∨ c = '\n' ∨ c = '\r' ∨ c = ',' ∨ c = ']' ∨ c = '\x7d' := by
    simpa [isBlank, or_assoc] using h
  rcases hcases with rfl | rfl | rfl | rfl | rfl | rfl | rfl <;> decide

theorem Power.starts {k : Int} (h : Power k text) : text = [] ∨ ∃ e ds, text = e :: ds ∧
    (e = 'e' ∨ e = 'E') := by
  cases h with
  | none => exact .inl rfl
  | plain he => exact .inr ⟨_, _, rfl, he⟩
  | up he => exact .inr ⟨_, _, rfl, he⟩
  | down he => exact .inr ⟨_, _, rfl, he⟩

/-- **A number is read** up to where the value is over. -/
theorem magnitude_append {q : ℚ} (h : Magnitude q text) (hrest : Delimits rest) :
    magnitude (text ++ rest) = some (q, rest) := by
  cases h with
  | @mk ds behind fractionText powerText k hwhole hfraction hpower =>
    have hpowerNext : NoNext (fun c => c.isDigit = true ∨ c = 'e' ∨ c = 'E') rest :=
      hrest.noNext fun c hc h => not_numeral_of_delimits hc (h.imp id .inr)
    have hfractionNext : NoNext (fun c => c.isDigit = true ∨ c = '.') (powerText ++ rest) := by
      rcases hpower.starts with rfl | ⟨e, ds, rfl, he⟩
      · exact hrest.noNext fun c hc h => not_numeral_of_delimits hc (h.imp id .inl)
      · intro c hc
        cases hc
        rcases he with rfl | rfl <;> decide
    have hwholeNext : NoNext (·.isDigit = true) (fractionText ++ (powerText ++ rest)) := by
      cases hfraction with
      | none => exact fun c hc h => hfractionNext c hc (.inl h)
      | some =>
        intro c hc
        cases hc
        decide
    unfold magnitude
    rw [List.append_assoc, List.append_assoc, whole_append hwhole hwholeNext]
    show (fraction (fractionText ++ (powerText ++ rest))).bind _ = _
    rw [fraction_append hfraction hfractionNext]
    show (power (powerText ++ rest)).bind _ = _
    rw [power_append hpower hpowerNext]
    rfl

/-! ### Values -/

/-- What the text of a value begins with. -/
structure Opens (c : Char) : Prop where
  notBlank : isBlank c = false
  ne_bracket : c ≠ ']'
  ne_brace : c ≠ '\x7d'

theorem Magnitude.starts {q : ℚ} (h : Magnitude q text) :
    ∃ c cs, text = c :: cs ∧ c.isDigit = true := by
  cases h with
  | mk hwhole =>
    obtain ⟨d, ds, rfl⟩ := List.exists_cons_of_ne_nil hwhole.1.1
    exact ⟨d, _, rfl, hwhole.1.2 d List.mem_cons_self⟩

theorem opens_of_isDigit (h : c.isDigit = true) : Opens c := by
  refine ⟨?_, ?_, ?_⟩
  · rw [Bool.eq_false_iff]
    intro hblank
    exact not_numeral_of_delimits (.inl hblank) (.inl h)
  · rintro rfl
    cases h
  · rintro rfl
    cases h

theorem starts_value {v : Json} (h : Derives (.value v) text) :
    ∃ c cs, text = c :: cs ∧ Opens c := by
  cases h with
  | positive h =>
    obtain ⟨c, cs, rfl, hc⟩ := h.starts
    exact ⟨c, cs, rfl, opens_of_isDigit hc⟩
  | _ => exact ⟨_, _, rfl, by decide, by decide, by decide⟩

theorem starts_element {v : Json} (h : Derives (.element v) text) :
    ∃ before c cs, text = before ++ c :: cs ∧ Blank before ∧ Opens c := by
  cases h with
  | element hbefore h =>
    obtain ⟨c, cs, rfl, hc⟩ := starts_value h
    exact ⟨_, c, _, by rw [List.append_assoc, List.cons_append], hbefore, hc⟩

theorem starts_elements {values : List Json} (h : Derives (.elements values) text) :
    ∃ before c cs, text = before ++ c :: cs ∧ Blank before ∧ Opens c := by
  cases h with
  | lastElement h => exact starts_element h
  | moreElements h =>
    obtain ⟨before, c, cs, rfl, hbefore, hc⟩ := starts_element h
    exact ⟨before, c, _, by rw [List.append_assoc, List.cons_append], hbefore, hc⟩

theorem starts_member {key : List Char} {v : Json} (h : Derives (.member key v) text) :
    ∃ before c cs, text = before ++ c :: cs ∧ Blank before ∧ Opens c := by
  cases h with
  | @member _ _ before keyText between text hbefore =>
    exact ⟨before, '"', keyText ++ '"' :: between ++ ':' :: text, by simp, hbefore, by decide,
      by decide, by decide⟩

theorem starts_members {members : List (List Char × Json)} (h : Derives (.members members) text) :
    ∃ before c cs, text = before ++ c :: cs ∧ Blank before ∧ Opens c := by
  cases h with
  | lastMember h => exact starts_member h
  | moreMembers h =>
    obtain ⟨before, c, cs, rfl, hbefore, hc⟩ := starts_member h
    exact ⟨before, c, _, by rw [List.append_assoc, List.cons_append], hbefore, hc⟩

/-- Whether an element is over: what stands behind an element comes next, or nothing. -/
def Closes (rest : List Char) : Prop :=
  ∀ c ∈ rest.head?, c = ',' ∨ c = ']' ∨ c = '\x7d'

theorem Closes.delimits (h : Closes rest) : Delimits rest := fun c hc => .inr (h c hc)

theorem Closes.skipBlank (h : Closes rest) : skipBlank rest = rest := by
  refine skipBlank_of_head? fun c hc => ?_
  rcases h c hc with rfl | rfl | rfl <;> rfl

theorem closes_cons (h : c = ',' ∨ c = ']' ∨ c = '\x7d') : Closes (c :: rest) := by
  rintro _ ⟨⟩
  exact h

/-- Blanks and the end of an element are the end of a value. -/
theorem delimits_append (h : Blank text) (hrest : Closes rest) : Delimits (text ++ rest) := by
  cases text with
  | nil => exact hrest.delimits
  | cons d ds =>
    intro c hc
    cases hc
    exact .inl (h d List.mem_cons_self)

/-- What is left of a list behind its opening bracket is read up to the closing one. -/
theorem closed_append {α : Type} {close : Char} {some? : Reader (List α)} {found : List α}
    (hstarts : ∃ before c cs, text = before ++ c :: cs ∧ Blank before ∧ Opens c)
    (hclose : close = ']' ∨ close = '\x7d')
    (h : some? (text ++ close :: rest) = some (found, close :: rest)) :
    closed close some? (text ++ close :: rest) = some (found, rest) := by
  obtain ⟨before, c, cs, rfl, hbefore, hc⟩ := hstarts
  have hnone : after? close (skipBlank (before ++ c :: cs ++ close :: rest)) = none := by
    rw [List.append_assoc, skipBlank_append hbefore, List.cons_append,
      skipBlank_of_head? (by rintro _ ⟨⟩; exact hc.notBlank)]
    refine after?_of_ne fun heq => ?_
    cases heq
    rcases hclose with rfl | rfl
    · exact hc.ne_bracket rfl
    · exact hc.ne_brace rfl
  unfold closed
  rw [hnone, h]
  show (after? close (close :: rest)).bind _ = _
  rw [after?_cons]
  rfl

theorem closed_blank {α : Type} {close : Char} {some? : Reader (List α)} (h : Blank text)
    (hclose : close = ']' ∨ close = '\x7d') :
    closed close some? (text ++ close :: rest) = some ([], rest) := by
  have hskip : skipBlank (close :: rest) = close :: rest :=
    skipBlank_of_head? (by rintro _ ⟨⟩; rcases hclose with rfl | rfl <;> rfl)
  unfold closed
  rw [skipBlank_append h, hskip, after?_cons]

section Separated

variable {α : Type} {item : Reader α} {first : α} {others : List α} {more : List Char} {count : Nat}

theorem separated_last (hc : c ≠ ',')
    (h : item (text ++ c :: rest) = some (first, c :: rest)) :
    separated item (count + 1) (text ++ c :: rest) = some ([first], c :: rest) := by
  have hnone : after? ',' (c :: rest) = none := after?_of_ne fun heq => hc (Option.some.inj heq)
  rw [separated, h]
  simp only [Option.bind_eq_bind, Option.bind_some, hnone]

theorem separated_more
    (h : item (text ++ ',' :: (more ++ rest)) = some (first, ',' :: (more ++ rest)))
    (hmore : separated item count (more ++ rest) = some (others, rest)) :
    separated item (count + 1) (text ++ ',' :: more ++ rest) = some (first :: others, rest) := by
  rw [separated, List.append_assoc, List.cons_append, h]
  show (separated item count (more ++ rest)).bind _ = _
  rw [hmore]
  rfl

end Separated

/-- Whether a part is read from a text of its own, whatever may follow it, with enough fuel. -/
def Part.Reads : Part → List Char → Prop
  | .value v, text => ∀ fuel rest, text.length ≤ fuel → Delimits rest →
      Json.value (fuel + 1) (text ++ rest) = some (v, rest)
  | .element v, text => ∀ fuel rest, text.length ≤ fuel → Closes rest →
      Json.element (Json.value (fuel + 1)) (text ++ rest) = some (v, rest)
  | .elements vs, text => ∀ fuel count rest, text.length ≤ fuel → text.length ≤ count →
      separated (Json.element (Json.value (fuel + 1))) (count + 1) (text ++ ']' :: rest) =
        some (vs, ']' :: rest)
  | .member key v, text => ∀ fuel rest, text.length ≤ fuel → Closes rest →
      Json.member (Json.value (fuel + 1)) (fuel + 1) (text ++ rest) = some ((key, v), rest)
  | .members ms, text => ∀ fuel count rest, text.length ≤ fuel → text.length ≤ count →
      separated (Json.member (Json.value (fuel + 1)) (fuel + 1)) (count + 1)
        (text ++ '\x7d' :: rest) = some (ms, '\x7d' :: rest)

theorem word_append (spelling : List Char) (v : Json) :
    word spelling v (spelling ++ rest) = some (v, rest) := by
  have hprefix : spelling.isPrefixOf (spelling ++ rest) = true :=
    List.isPrefixOf_iff_prefix.mpr (List.prefix_append _ _)
  unfold word
  rw [if_pos hprefix, List.drop_left]

theorem value_of_isDigit {fuel : Nat} (h : c.isDigit = true) : value (fuel + 1) (c :: rest) =
    (magnitude (c :: rest)).map fun (q, rest) => (.number false q, rest) := by
  have hne {d : Char} (hd : d.isDigit = false) : c ≠ d := by
    rintro rfl
    rw [h] at hd
    cases hd
  rw [value, if_neg (hne rfl), if_neg (hne rfl), if_neg (hne rfl), if_neg (hne rfl),
    if_neg (hne rfl), if_neg (hne rfl), if_neg (hne rfl)]

theorem element_append {v : Json} {before behind : List Char} {value : Reader Json}
    (hbefore : Blank before) (h : Derives (.value v) text) (hbehind : Blank behind)
    (hrest : Closes rest)
    (hread : value (text ++ (behind ++ rest)) = some (v, behind ++ rest)) :
    element value (before ++ text ++ behind ++ rest) = some (v, rest) := by
  obtain ⟨c, cs, rfl, hc⟩ := starts_value h
  have hskip : skipBlank (before ++ c :: cs ++ behind ++ rest) = c :: cs ++ (behind ++ rest) := by
    rw [List.append_assoc, List.append_assoc, skipBlank_append hbefore, List.cons_append]
    exact skipBlank_of_head? (by rintro _ ⟨⟩; exact hc.notBlank)
  unfold element
  rw [hskip, hread]
  show some (v, skipBlank (behind ++ rest)) = _
  rw [skipBlank_append hbehind, hrest.skipBlank]

theorem member_append {key : List Char} {v : Json} {before keyText between : List Char}
    {value : Reader Json} {fuel : Nat} (hbefore : Blank before) (hkey : Content key keyText)
    (hfuel : keyText.length < fuel) (hbetween : Blank between)
    (hread : element value (text ++ rest) = some (v, rest)) :
    member value fuel (before ++ '"' :: keyText ++ '"' :: between ++ ':' :: text ++ rest) =
      some ((key, v), rest) := by
  have hquote : after? '"' (skipBlank (before ++ '"' :: keyText ++ '"' :: between ++
      ':' :: text ++ rest)) = some (keyText ++ '"' :: (between ++ ':' :: (text ++ rest))) := by
    simp only [List.append_assoc, List.cons_append]
    rw [skipBlank_append hbefore]
    rfl
  have hcolon : after? ':' (skipBlank (between ++ ':' :: (text ++ rest))) =
      some (text ++ rest) := by
    rw [skipBlank_append hbetween]
    rfl
  unfold member
  rw [hquote]
  show (content fuel (keyText ++ _)).bind _ = _
  rw [content_append hkey hfuel]
  show (after? ':' (skipBlank (between ++ ':' :: (text ++ rest)))).bind _ = _
  rw [hcolon]
  show (element value (text ++ rest)).bind _ = _
  rw [hread]
  rfl

/-- **Whatever is derived is read.** -/
theorem Derives.reads {p : Part} (h : Derives p text) : p.Reads text := by
  induction h with
  | null => exact fun _ _ _ _ => word_append "null".toList .null
  | true => exact fun _ _ _ _ => word_append "true".toList (.bool Bool.true)
  | false => exact fun _ _ _ _ => word_append "false".toList (.bool Bool.false)
  | positive h =>
    intro fuel rest _ hrest
    have hread := magnitude_append h hrest
    obtain ⟨c, cs, rfl, hc⟩ := h.starts
    rw [List.cons_append, value_of_isDigit hc, ← List.cons_append, hread]
    rfl
  | negative h =>
    intro fuel rest _ hrest
    show (magnitude (_ ++ rest)).map _ = _
    rw [magnitude_append h hrest]
    rfl
  | @string content text h =>
    intro fuel rest hfuel _
    rw [List.length_append, List.length_cons] at hfuel
    show (Json.content fuel (text ++ ['"'] ++ rest)).map _ = _
    rw [List.append_assoc, List.singleton_append, content_append h (by omega)]
    rfl
  | @noElements gap h =>
    intro fuel rest _ _
    show (closed ']' _ (gap ++ [']'] ++ rest)).map _ = _
    rw [List.append_assoc, List.singleton_append, closed_blank h (.inl rfl)]
    rfl
  | @array values text h ih =>
    intro fuel rest hfuel _
    rw [List.length_append, List.length_cons] at hfuel
    obtain ⟨fuel, rfl⟩ : ∃ k, fuel = k + 1 := ⟨fuel - 1, by omega⟩
    show (closed ']' _ (text ++ [']'] ++ rest)).map _ = _
    rw [List.append_assoc, List.singleton_append, closed_append (starts_elements h) (.inl rfl)
      (ih fuel fuel rest (by omega) (by omega))]
    rfl
  | @noMembers gap h =>
    intro fuel rest _ _
    show (closed '\x7d' _ (gap ++ ['\x7d'] ++ rest)).map _ = _
    rw [List.append_assoc, List.singleton_append, closed_blank h (.inr rfl)]
    rfl
  | @object members text h ih =>
    intro fuel rest hfuel _
    rw [List.length_append, List.length_cons] at hfuel
    obtain ⟨fuel, rfl⟩ : ∃ k, fuel = k + 1 := ⟨fuel - 1, by omega⟩
    show (closed '\x7d' _ (text ++ ['\x7d'] ++ rest)).map _ = _
    rw [List.append_assoc, List.singleton_append, closed_append (starts_members h) (.inr rfl)
      (ih fuel fuel rest (by omega) (by omega))]
    rfl
  | element hbefore h hbehind ih =>
    intro fuel rest hfuel hrest
    simp only [List.length_append] at hfuel
    exact element_append hbefore h hbehind hrest
      (ih fuel _ (by omega) (delimits_append hbehind hrest))
  | lastElement h ih =>
    intro fuel count rest hfuel hcount
    exact separated_last (by decide) (ih fuel _ hfuel (closes_cons (.inr (.inl rfl))))
  | moreElements h hmore ih ihmore =>
    intro fuel count rest hfuel hcount
    rw [List.length_append, List.length_cons] at hfuel hcount
    obtain ⟨count, rfl⟩ : ∃ k, count = k + 1 := ⟨count - 1, by omega⟩
    exact separated_more (ih fuel _ (by omega) (closes_cons (.inl rfl)))
      (ihmore fuel count rest (by omega) (by omega))
  | member hbefore hkey hbetween h ih =>
    intro fuel rest hfuel hrest
    simp only [List.length_append, List.length_cons] at hfuel
    exact member_append hbefore hkey (by omega) hbetween (ih fuel rest (by omega) hrest)
  | lastMember h ih =>
    intro fuel count rest hfuel hcount
    exact separated_last (by decide) (ih fuel _ hfuel (closes_cons (.inr (.inr rfl))))
  | moreMembers h hmore ih ihmore =>
    intro fuel count rest hfuel hcount
    rw [List.length_append, List.length_cons] at hfuel hcount
    obtain ⟨count, rfl⟩ : ∃ k, count = k + 1 := ⟨count - 1, by omega⟩
    exact separated_more (ih fuel _ (by omega) (closes_cons (.inl rfl)))
      (ihmore fuel count rest (by omega) (by omega))

/-- **A text of a value is read as this value.** -/
theorem read?_of_spells {v : Json} (h : Spells v text) : read? text = some v := by
  have hread := h.reads text.length [] le_rfl (by rintro _ ⟨⟩)
  rw [List.append_nil] at hread
  unfold read?
  rw [hread]

/-- **No text stands for two values.** -/
theorem Spells.unique {v w : Json} (hv : Spells v text) (hw : Spells w text) : v = w :=
  Option.some.inj ((read?_of_spells hv).symm.trans (read?_of_spells hw))

end Lox.Json
