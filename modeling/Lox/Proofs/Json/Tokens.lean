import Lox.CommandLine
import Lox.Proofs.Json.Numbers
import Lox.Proofs.Json.Reader
import Mathlib.Data.List.Nodup

/-!
# The JSON listing of tokens

The JSON text of a token is a text of one JSON value only, an object with the token's kind, lexeme
and line, and all of it is on one line (`Token.spells_json`, `Token.printable_jsonChars`).  Its strings
are the texts of the token character for character, whatever these contain, and a finite number is
read back as the same double.  So a token's text is no other token's text, except that all numbers
without a value look alike (`Token.json_lossless`).
-/

namespace Lox

/-! ## Strings -/

namespace Json

theorem hexValue?_digitChar : ∀ n < 16, hexValue? (Nat.digitChar n) = some n := by
  decide

theorem fourHex_of_lt {n : Nat} (h : n < 0x10000) : FourHex (Quoted.fourHex n) n := by
  refine ⟨rfl, ?_⟩
  have hdigit (k : Nat) : hexValue? (Nat.digitChar (k % 16)) = some (k % 16) :=
    hexValue?_digitChar _ (Nat.mod_lt k (by decide))
  simp only [Quoted.fourHex, hexValue, hdigit, Option.bind_some]
  congr 1
  omega

/-- **Each character is escaped as the grammar allows.** -/
theorem escaped_jsonChar (c : Char) : Escaped c (Quoted.jsonChar c) := by
  unfold Quoted.jsonChar
  -- Seven characters have a letter.
  iterate 7
    split
    · next h => exact .short (by rw [h]; decide)
  split
  · next h =>
    have hcode := Escaped.code (fourHex_of_lt (Nat.lt_trans h (by decide))) c.valid
    rwa [Char.ofNat_toNat] at hcode
  · next hquote hbackslash _ _ _ _ _ h => exact .plain (not_lt.mp h) hquote hbackslash

theorem content_jsonChars (text : List Char) : Content text (text.flatMap Quoted.jsonChar) := by
  induction text with
  | nil => exact .nil
  | cons c cs ih => exact .cons (escaped_jsonChar c) ih

theorem derives_quoted (text : List Char) : Derives (.value (.string text)) (Quoted.json text) :=
  .string (content_jsonChars text)

/-! ## Printable texts -/

/-- Whether a text has no control characters below the blank. -/
def Printable (text : List Char) : Prop :=
  ∀ c ∈ text, 0x20 ≤ c.toNat

variable {c : Char} {text text' : List Char}

instance : Decidable (Printable text) :=
  List.decidableBAll (fun c : Char => 0x20 ≤ c.toNat) text

theorem Printable.append (h : Printable text) (h' : Printable text') : Printable (text ++ text') :=
  List.forall_mem_append.mpr ⟨h, h'⟩

theorem Printable.cons (hc : 0x20 ≤ c.toNat) (h : Printable text) : Printable (c :: text) :=
  List.forall_mem_cons.mpr ⟨hc, h⟩

theorem printable_hexValue {before code : Nat} (h : hexValue before text = some code) :
    Printable text := by
  induction text generalizing before with
  | nil => exact List.forall_mem_nil _
  | cons c cs ih =>
    obtain ⟨n, hn, hcs⟩ := Option.bind_eq_some_iff.mp h
    refine .cons ?_ (ih hcs)
    have hle {least : Char} (hleast : 0x20 ≤ least.toNat) (h : least ≤ c) : 0x20 ≤ c.toNat :=
      hleast.trans h
    unfold hexValue? at hn
    split at hn
    · next h => exact hle (by decide) h.1
    split at hn
    · next h => exact hle (by decide) h.1
    split at hn
    · next h => exact hle (by decide) h.1
    · cases hn

theorem printable_escaped (h : Escaped c text) : Printable text := by
  cases h with
  | plain hc => exact .cons hc (List.forall_mem_nil _)
  | short h =>
    have hletter : ∀ p ∈ shortEscapes, 0x20 ≤ p.1.toNat := by decide
    exact .cons (by decide) (.cons (hletter _ h) (List.forall_mem_nil _))
  | code h => exact .cons (by decide) (.cons (by decide) (printable_hexValue h.2))
  | pair hhigh hlow =>
    exact .append (.cons (by decide) (.cons (by decide) (printable_hexValue hhigh.2)))
      (.cons (by decide) (.cons (by decide) (printable_hexValue hlow.2)))

theorem printable_content (h : Content text text') : Printable text' := by
  induction h with
  | nil => exact List.forall_mem_nil _
  | cons hc _ ih => exact (printable_escaped hc).append ih

theorem printable_quoted (text : List Char) : Printable (Quoted.json text) :=
  .cons (by decide) ((printable_content (content_jsonChars text)).append (by decide))

theorem printable_digits (h : Digits text) : Printable text := by
  intro c hc
  have hzero : '0'.val ≤ c.val := of_decide_eq_true ((Bool.and_eq_true _ _).mp (h.2 c hc)).1
  exact le_trans (by decide) (UInt32.le_iff_toNat_le.mp hzero)

theorem printable_magnitude {q : ℚ} (h : Magnitude q text) : Printable text := by
  cases h with
  | mk hwhole hfraction hpower =>
    refine ((printable_digits hwhole.1).append ?_).append ?_
    · cases hfraction with
      | none => exact List.forall_mem_nil _
      | some h => exact .cons (by decide) (printable_digits h)
    · cases hpower with
      | none => exact List.forall_mem_nil _
      | plain he h => exact .cons (by rcases he with rfl | rfl <;> decide) (printable_digits h)
      | up he h =>
        exact .cons (by rcases he with rfl | rfl <;> decide)
          (.cons (by decide) (printable_digits h))
      | down he h =>
        exact .cons (by rcases he with rfl | rfl <;> decide)
          (.cons (by decide) (printable_digits h))

theorem printable_inJson (x : Float) : Printable (Number.inJson x) := by
  have h := derives_inJson x
  unfold ofFloat at h
  split at h
  · cases hsign : Binary64.isNegative x with
    | false =>
      rw [hsign] at h
      generalize Number.inJson x = text at h ⊢
      cases h with
      | positive h => exact printable_magnitude h
    | true =>
      rw [hsign] at h
      generalize Number.inJson x = text at h ⊢
      cases h with
      | negative h => exact .cons (by decide) (printable_magnitude h)
  · generalize Number.inJson x = text at h ⊢
    cases h
    decide

theorem derives_natural (n : Nat) :
    Derives (.value (.number false n)) (Nat.toDigits 10 n) := by
  have hdigits := Decimal.digits_toDigits n
  have hwhole : Whole (Nat.toDigits 10 n) := by
    refine ⟨hdigits, fun hzero => ?_⟩
    by_cases hn : n = 0
    · rw [hn]
      rfl
    · exact absurd hzero (Decimal.head?_toDigits_ne_zero hn)
  have h := Magnitude.mk hwhole .none .none
  have hvalue : Number.decimal (Nat.toDigits 10 n) [] * 10 ^ (0 : Int) = n := by
    rw [Decimal.decimal_toDigits, zpow_zero, mul_one]
  rw [hvalue, List.append_nil, List.append_nil] at h
  exact .positive h

/-! ## Texts without blanks -/

theorem Derives.bare {v : Json} (h : Derives (.value v) text) : Derives (.element v) text := by
  have helement := Derives.element (List.forall_mem_nil _) h (List.forall_mem_nil _)
  rwa [List.nil_append, List.append_nil] at helement

theorem Derives.named {v : Json} (name : List Char) (h : Derives (.value v) text) :
    Derives (.member name v) (Quoted.json name ++ ':' :: text) := by
  have hmember := Derives.member (List.forall_mem_nil _) (content_jsonChars name)
    (List.forall_mem_nil _) h.bare
  simpa only [Quoted.json, List.cons_append, List.append_assoc, List.nil_append] using hmember

end Json

namespace Token

open Json (Derives Printable)

/-! ## Tokens as values -/

/-- The member for what a token denotes; only strings and numbers have one. -/
def Kind.literalMember : Kind → List (List Char × Json)
  | .string content => [("literal".toList, .string content.toList)]
  | .number value => [("literal".toList, .ofFloat value)]
  | _ => []

/-- The JSON value of a kind. -/
def Kind.toJson (kind : Kind) : Json :=
  .object (("type".toList, .string kind.name.toList) :: kind.literalMember)

/-- **The JSON value of a token.** -/
def toJson (token : Token) : Json :=
  .object [("token".toList, token.kind.toJson), ("lexeme".toList, .string token.lexeme.toList),
    ("line".toList, .number false token.line)]

theorem Kind.literal_cases (kind : Kind) :
    (kind.literalMember = [] ∧ kind.jsonLiteral = []) ∨
      ∃ v text, kind.literalMember = [("literal".toList, v)] ∧
        kind.jsonLiteral = ",\"literal\":".toList ++ text ∧ Derives (.value v) text ∧
        Printable text := by
  cases kind with
  | string content =>
    exact .inr ⟨_, _, rfl, rfl, Json.derives_quoted _, Json.printable_quoted _⟩
  | number value => exact .inr ⟨_, _, rfl, rfl, Json.derives_inJson _, Json.printable_inJson _⟩
  | _ => exact .inl ⟨rfl, rfl⟩

theorem Kind.derives_json (kind : Kind) : Derives (.value kind.toJson) kind.json := by
  have htypeKey : "\x7b\"type\":".toList = '\x7b' :: Quoted.json "type".toList ++ [':'] := rfl
  have hliteralKey : ",\"literal\":".toList = ',' :: Quoted.json "literal".toList ++ [':'] := rfl
  have htype := (Json.derives_quoted kind.name.toList).named "type".toList
  unfold toJson json
  rw [htypeKey]
  rcases kind.literal_cases with ⟨hmember, htext⟩ | ⟨v, text, hmember, htext, hv, _⟩
  · have h := Derives.object (.lastMember htype)
    rw [hmember, htext]
    simpa only [List.cons_append, List.append_assoc, List.nil_append] using h
  · have h := Derives.object (.moreMembers htype (.lastMember (hv.named "literal".toList)))
    rw [hmember, htext, hliteralKey]
    simpa only [List.cons_append, List.append_assoc, List.nil_append] using h

theorem derives_json (token : Token) : Derives (.value token.toJson) token.jsonChars := by
  have htoken : "\x7b\"token\":".toList = '\x7b' :: Quoted.json "token".toList ++ [':'] := rfl
  have hlexeme : ",\"lexeme\":".toList = ',' :: Quoted.json "lexeme".toList ++ [':'] := rfl
  have hline : ",\"line\":".toList = ',' :: Quoted.json "line".toList ++ [':'] := rfl
  have h := Derives.object (.moreMembers (token.kind.derives_json.named "token".toList)
    (.moreMembers ((Json.derives_quoted token.lexeme.toList).named "lexeme".toList)
      (.lastMember ((Json.derives_natural token.line).named "line".toList))))
  unfold toJson jsonChars
  rw [htoken, hlexeme, hline]
  simpa only [List.cons_append, List.append_assoc, List.nil_append] using h

example : (⟨.string "a\n", "\"a\n\"", 2⟩ : Token).jsonChars =
    ("\x7b\"token\":\x7b\"type\":\"STRING\",\"literal\":\"a\\n\"\x7d," ++
      "\"lexeme\":\"\\\"a\\n\\\"\",\"line\":2\x7d").toList := by
  decide

theorem printable_jsonChars (token : Token) : Printable token.jsonChars := by
  have hliteral : Printable token.kind.jsonLiteral := by
    rcases token.kind.literal_cases with ⟨_, htext⟩ | ⟨v, text, _, htext, _, h⟩
    · rw [htext]
      exact List.forall_mem_nil _
    · rw [htext]
      exact .append (by decide) h
  have hkind : Printable token.kind.json :=
    (((show Printable "\x7b\"type\":".toList by decide).append
      (Json.printable_quoted _)).append hliteral).append (by decide)
  have hline : Printable (Nat.toDigits 10 token.line) :=
    Json.printable_digits (Decimal.digits_toDigits _)
  exact .append (.append (.append (.append (.append (.append (by decide) hkind) (by decide))
    (Json.printable_quoted _)) (by decide)) hline) (by decide)

/-- A token's text is a text of its value. -/
theorem spells_json (token : Token) : Json.Spells token.toJson token.json.toList := by
  unfold json
  rw [String.toList_ofList]
  exact token.derives_json.bare

/-! ## Names of kinds -/

/-- The kind, without what the token denotes. -/
def Kind.bare : Kind → Kind
  | .string _ => .string ""
  | .number _ => .number 0
  | kind => kind

/-- All kinds of tokens. -/
def Kind.all : List Kind :=
  Symbol.all.map .symbol ++ Keyword.all.map .keyword ++
    [.identifier, .string "", .number 0, .eof]

theorem Kind.bare_mem_all (kind : Kind) : kind.bare ∈ all := by
  cases kind with
  | symbol s =>
    have h : s ∈ Symbol.all := by cases s <;> decide
    exact List.mem_append_left _ (List.mem_append_left _ (List.mem_map_of_mem h))
  | keyword k =>
    have h : k ∈ Keyword.all := by cases k <;> decide
    exact List.mem_append_left _ (List.mem_append_right _ (List.mem_map_of_mem h))
  | _ => exact List.mem_append_right _ (by simp [bare])

theorem Kind.name_bare (kind : Kind) : kind.bare.name = kind.name := by
  cases kind <;> rfl

/-- **No two kinds have the same name.** -/
theorem Kind.nodup_names : (all.map name).Nodup := by
  decide

theorem Kind.bare_eq_of_name {kind kind' : Kind} (h : kind.name = kind'.name) :
    kind.bare = kind'.bare := by
  rw [← kind.name_bare, ← kind'.name_bare] at h
  exact List.inj_on_of_nodup_map nodup_names kind.bare_mem_all kind'.bare_mem_all h

/-! ## Nothing is lost -/

/-- Numbers with the same JSON value are the same, or have none. -/
theorem eq_of_ofFloat {x y : Float} (h : Json.ofFloat x = Json.ofFloat y) :
    x = y ∨ ¬ x.isFinite = true ∧ ¬ y.isFinite = true := by
  unfold Json.ofFloat at h
  by_cases hx : x.isFinite = true <;> by_cases hy : y.isFinite = true
  · rw [if_pos hx, if_pos hy, Json.number.injEq] at h
    have hread := Json.readsAs_magnitudeOf hx
    rw [h.1, h.2] at hread
    exact .inl (hread.unique (Json.readsAs_magnitudeOf hy))
  · rw [if_pos hx, if_neg hy] at h
    cases h
  · rw [if_neg hx, if_pos hy] at h
    cases h
  · exact .inr ⟨hx, hy⟩

/-- Whether two kinds are the same, or numbers that JSON has no text for. -/
def Kind.SameJson (kind kind' : Kind) : Prop :=
  kind = kind' ∨ ∃ x y, kind = .number x ∧ kind' = .number y ∧
    ¬ x.isFinite = true ∧ ¬ y.isFinite = true

theorem Kind.sameJson_of_toJson {kind kind' : Kind} (h : kind.toJson = kind'.toJson) :
    kind.SameJson kind' := by
  unfold toJson at h
  rw [Json.object.injEq, List.cons.injEq, Prod.mk.injEq, Json.string.injEq] at h
  obtain ⟨⟨_, hname⟩, hliteral⟩ := h
  have hbare := bare_eq_of_name (String.toList_inj.mp hname)
  cases kind with
  | string content =>
    cases kind' with
    | string content' =>
      rw [literalMember, literalMember, List.cons.injEq, Prod.mk.injEq,
        Json.string.injEq] at hliteral
      rw [String.toList_inj.mp hliteral.1.2]
      exact .inl rfl
    | _ => cases hbare
  | number x =>
    cases kind' with
    | number y =>
      rw [literalMember, literalMember, List.cons.injEq, Prod.mk.injEq] at hliteral
      rcases eq_of_ofFloat hliteral.1.2 with rfl | hfinite
      · exact .inl rfl
      · exact .inr ⟨x, y, rfl, rfl, hfinite⟩
    | _ => cases hbare
  | _ =>
    cases kind' with
    | string => cases hbare
    | number => cases hbare
    | _ => exact .inl hbare

/-- **The JSON text of a token loses nothing.**  It is printable, so that it is on one line, and by
the grammar of JSON it is the text of one value, the object that `Token.toJson` says.  The number in
it, if the token has one, is the token's own double when it is read back, and only a double that is
not finite has none.  Every other token has another text, unless both are such numbers. -/
theorem json_lossless (token : Token) :
    Printable token.json.toList ∧
    (∀ v, Json.Spells v token.json.toList ↔ v = token.toJson) ∧
    (∀ x, token.kind = .number x →
      (x.isFinite = true → ∃ magnitude, Json.ofFloat x = .number (Binary64.isNegative x) magnitude ∧
        ∀ y, Json.ReadsAs (Binary64.isNegative x) magnitude y ↔ y = x) ∧
      (¬ x.isFinite = true → Json.ofFloat x = .null)) ∧
    ∀ other : Token, other.json = token.json →
      other.lexeme = token.lexeme ∧ other.line = token.line ∧ other.kind.SameJson token.kind := by
  refine ⟨?_, fun v => ⟨fun h => h.unique token.spells_json, ?_⟩, fun x _ => ⟨?_, ?_⟩, ?_⟩
  · unfold json
    rw [String.toList_ofList]
    exact token.printable_jsonChars
  · rintro rfl
    exact token.spells_json
  · intro hfinite
    have hread := Json.readsAs_magnitudeOf hfinite
    refine ⟨_, if_pos hfinite, fun y => ⟨fun hy => hy.unique hread, ?_⟩⟩
    rintro rfl
    exact hread
  · exact fun hfinite => if_neg hfinite
  · intro other htext
    have hother := other.spells_json
    rw [htext] at hother
    have hvalue := hother.unique token.spells_json
    unfold toJson at hvalue
    rw [Json.object.injEq, List.cons.injEq, List.cons.injEq, List.cons.injEq, Prod.mk.injEq,
      Prod.mk.injEq, Prod.mk.injEq, Json.string.injEq, Json.number.injEq] at hvalue
    obtain ⟨⟨_, hkind⟩, ⟨_, hlexeme⟩, ⟨_, _, hline⟩, _⟩ := hvalue
    exact ⟨String.toList_inj.mp hlexeme, Nat.cast_injective hline, Kind.sameJson_of_toJson hkind⟩

/-! ## The listing of a text -/

theorem newline_notMem_json (token : Token) : '\n' ∉ token.json.toList := by
  unfold json
  rw [String.toList_ofList]
  exact fun h => absurd (token.printable_jsonChars '\n' h) (by decide)

/-- Lines that end with a newline each are the pieces between newlines, with nothing behind the
last. -/
theorem flatMap_newline (tokens : List Token) :
    tokens.flatMap (fun token => (token.json ++ "\n").toList) =
      ['\n'].intercalate (tokens.map (·.json.toList) ++ [[]]) := by
  induction tokens with
  | nil => rfl
  | cons token tokens ih =>
    have hne : tokens.map (·.json.toList) ++ [[]] ≠ [] :=
      List.append_ne_nil_of_right_ne_nil _ (List.cons_ne_nil _ _)
    rw [List.flatMap_cons, ih, List.map_cons, List.cons_append, List.intercalate_cons_of_ne_nil hne,
      String.toList_append]
    rfl

/-- **The listing of a text has one line for each token,** so that all of them can be had back from
what the process writes. -/
theorem splitOn_listing (text : List Char) : ∃ listing : String,
    (CommandLine.tokenizeText true text).stdout = listing.toUTF8 ∧
      listing.toList.splitOn '\n' = (tokens text).map (·.json.toList) ++ [[]] := by
  refine ⟨_, rfl, ?_⟩
  rw [String.toList_join, List.flatMap_map]
  refine (congrArg _ (flatMap_newline (tokens text))).trans ?_
  refine List.splitOn_intercalate _ ?_ (List.append_ne_nil_of_right_ne_nil _ (List.cons_ne_nil _ _))
  intro line hline
  rcases List.mem_append.mp hline with hline | hline
  · obtain ⟨token, _, rfl⟩ := List.mem_map.mp hline
    exact token.newline_notMem_json
  · rw [List.mem_singleton.mp hline]
    exact List.not_mem_nil

end Token

end Lox
