import Lox.Proofs.Scanning.Grammar

/-!
# Separators

Whether a text ends inside a comment or an open string shows from its quotes, slashes and newlines
alone: `TextEnd.of` reads them one by one.  Behind a text that ends inside neither, a character that
continues no word, number or symbol separates it from all that follows: the text is cut as it is on
its own (`Cut.ofText_separator`), and its items are followed by those from the separator on
(`Reader.items_separator`).  A newline does so behind a comment too.  So a text of a class is cut off
whole wherever a separator follows (`Cut.ofText_spelled`).
-/

namespace Lox

/-! ## How a text ends -/

/-- Where a text leaves its reader: behind a slash that may begin a comment, inside a comment,
inside an open string, or in none of these places. -/
inductive TextEnd
  | plain
  | slash
  | comment
  | string
  deriving DecidableEq, Repr

namespace TextEnd

/-- One character further. -/
def next : TextEnd → Char → TextEnd
  | string, c => if c = '"' then plain else string
  | comment, c => if c = '\n' then plain else comment
  | slash, c => if c = '/' then comment else if c = '"' then string else plain
  | plain, c => if c = '/' then slash else if c = '"' then string else plain

/-- Behind a whole text. -/
def after (e : TextEnd) (text : List Char) : TextEnd :=
  text.foldl next e

/-- How a text ends. -/
def of (text : List Char) : TextEnd :=
  plain.after text

variable {text more : List Char} {c : Char}

theorem after_append (e : TextEnd) : e.after (text ++ more) = (e.after text).after more :=
  List.foldl_append

theorem comment_after (h : '\n' ∉ text) : comment.after text = comment := by
  induction text with
  | nil => rfl
  | cons c cs ih =>
    obtain ⟨hc, hcs⟩ := List.ne_and_not_mem_of_not_mem_cons h
    have hnext : comment.next c = comment := if_neg (Ne.symm hc)
    rw [after, List.foldl_cons, hnext]
    exact ih hcs

theorem string_after (h : '"' ∉ text) : string.after text = string := by
  induction text with
  | nil => rfl
  | cons c cs ih =>
    obtain ⟨hc, hcs⟩ := List.ne_and_not_mem_of_not_mem_cons h
    have hnext : string.next c = string := if_neg (Ne.symm hc)
    rw [after, List.foldl_cons, hnext]
    exact ih hcs

/-- What holds neither a slash nor a quote leads nowhere. -/
theorem plain_after (h : ∀ c ∈ text, c ≠ '/' ∧ c ≠ '"') : plain.after text = plain := by
  induction text with
  | nil => rfl
  | cons c cs ih =>
    obtain ⟨hc, hcs⟩ := List.forall_mem_cons.mp h
    have hnext : plain.next c = plain := (if_neg hc.1).trans (if_neg hc.2)
    rw [after, List.foldl_cons, hnext]
    exact ih hcs

theorem slash_after (h : text.head? ≠ some '/') :
    slash.after text = plain.after text ∨ text = [] := by
  cases text with
  | nil => exact .inr rfl
  | cons c cs =>
    have hc : c ≠ '/' := by simpa using h
    have hnext : slash.next c = plain.next c :=
      (if_neg hc).trans (if_neg hc : plain.next c = _).symm
    exact .inl (congrArg (TextEnd.after · cs) hnext)

end TextEnd

/-! ## Cutting before a separator -/

/-- Whether a character continues no word, number or symbol. -/
structure Separates (d : Char) : Prop where
  not_word : Cut.isWordTail d = false
  ne_equal : d ≠ '='
  ne_slash : d ≠ '/'
  ne_point : d ≠ '.'

theorem Separates.newline : Separates '\n' := by
  constructor <;> decide

theorem Separates.not_digit {d : Char} (h : Separates d) : d.isDigit = false := by
  have hnot := h.not_word
  unfold Cut.isWordTail Char.isAlphanum at hnot
  simp only [Bool.or_eq_false_iff] at hnot
  exact hnot.1.2

section Before

variable {p : Char → Bool} {l more : List Char} {c d : Char} {cs : List Char}

/-- Taking stops in a list as it does alone, if it stops there or at what comes next. -/
theorem takeWhile_before (h : p d = false ∨ l.dropWhile p ≠ []) :
    (l ++ d :: more).takeWhile p = l.takeWhile p := by
  rw [List.takeWhile_append]
  split
  · next hall =>
    have hwhole := (List.takeWhile_prefix p (l := l)).eq_of_length hall
    have hnone := List.dropWhile_eq_nil_iff.mpr (List.takeWhile_eq_self_iff.mp hwhole)
    have hd := h.resolve_right fun hsome => hsome hnone
    rw [List.takeWhile_cons_of_neg (by simp [hd]), List.append_nil, hwhole]
  · rfl

theorem dropWhile_before (h : p d = false ∨ l.dropWhile p ≠ []) :
    (l ++ d :: more).dropWhile p = l.dropWhile p ++ d :: more := by
  rw [List.dropWhile_append]
  split
  · next hnone =>
    rw [List.isEmpty_iff] at hnone
    have hd := h.resolve_right fun hsome => hsome hnone
    rw [hnone, List.dropWhile_cons_of_neg (by simp [hd]), List.nil_append]
  · rfl

namespace Cut

/-- A cut with more text behind it. -/
def before (cut : Cut) (more : List Char) : Cut :=
  { cut with rest := cut.rest ++ more }

theorem comment_before (h : d = '\n' ∨ (comment c cs).rest ≠ []) :
    comment c (cs ++ d :: more) = (comment c cs).before (d :: more) := by
  have hstop : (d != '\n') = false ∨ cs.dropWhile (· != '\n') ≠ [] :=
    h.imp_left fun h => by simp [h]
  unfold comment
  rw [takeWhile_before hstop, dropWhile_before hstop]
  rfl

theorem word_before (hd : Separates d) :
    word c (cs ++ d :: more) = (word c cs).before (d :: more) := by
  unfold word
  rw [takeWhile_before (.inl hd.not_word), dropWhile_before (.inl hd.not_word)]
  rfl

theorem symbol_before (hd : Separates d) (s : Symbol) :
    symbol c s (cs ++ d :: more) = (symbol c s cs).before (d :: more) := by
  have hother {e : Char} {es : List Char} (he : e ≠ '=') :
      symbol c s (e :: es) = ⟨.symbol s, [c], e :: es⟩ := by
    unfold symbol
    split
    · next h _ => exact absurd (List.cons.inj h).1 he
    · rfl
  cases cs with
  | nil =>
    rw [List.nil_append, hother hd.ne_equal]
    cases s <;> rfl
  | cons e es =>
    by_cases he : e = '='
    · subst he
      cases s <;> rfl
    · rw [List.cons_append, hother he, hother he]
      rfl

/-- A point behind which no digit follows ends a number, also at the end of the text. -/
theorem number_before (hd : Separates d) :
    number c (cs ++ d :: more) = (number c cs).before (d :: more) := by
  have hstop (l : List Char) : d.isDigit = false ∨ l.dropWhile Char.isDigit ≠ [] :=
    .inl hd.not_digit
  unfold number
  rw [takeWhile_before (hstop cs), dropWhile_before (hstop cs)]
  cases hrest : cs.dropWhile Char.isDigit with
  | nil =>
    dsimp only [List.nil_append]
    split
    · next h => exact absurd (List.cons.inj h).1 hd.ne_point
    · rfl
  | cons e es =>
    by_cases he : e = '.'
    · subst he
      cases es with
      | nil => simp [hd.not_digit, before]
      | cons f fs =>
        cases hf : f.isDigit with
        | true =>
          simp only [List.cons_append, hf, if_true, before]
          rw [takeWhile_before (hstop fs), dropWhile_before (hstop fs)]
        | false => simp [hf, before]
    · split
      · next h => exact absurd (List.cons.inj h).1 he
      · split
        · next h => exact absurd (List.cons.inj h).1 he
        · rfl

theorem string_before (h : (string c cs).piece ≠ .unterminated) :
    string c (cs ++ d :: more) = (string c cs).before (d :: more) := by
  have hclosed : cs.dropWhile (· != '"') ≠ [] := by
    intro hopen
    unfold string at h
    rw [hopen] at h
    exact h rfl
  unfold string
  rw [dropWhile_before (.inr hclosed), takeWhile_before (.inr hclosed)]
  cases hrest : cs.dropWhile (· != '"') with
  | nil => exact absurd hrest hclosed
  | cons quote rest => rfl

/-- **A separator ends every piece** but an open string and, unless it is a newline, a comment. -/
theorem ofText_separator (hd : Separates d) (hstring : (ofText c cs).piece ≠ .unterminated)
    (hcomment : (ofText c cs).piece = .comment → d = '\n' ∨ (ofText c cs).rest ≠ []) :
    ofText c (cs ++ d :: more) = (ofText c cs).before (d :: more) := by
  have hslash : (cs ++ d :: more).head? = some '/' ↔ cs.head? = some '/' := by
    cases cs with
    | nil => simpa using hd.ne_slash
    | cons e es => rfl
  unfold ofText at hstring hcomment ⊢
  simp only [hslash]
  split
  · rfl
  next hblank =>
  split
  · rfl
  next hnewline =>
  split
  · simp_all [string_before]
  next hquote =>
  split
  · exact number_before hd
  next hdigit =>
  split
  · exact word_before hd
  next hword =>
  split
  · next hslashes =>
    rw [if_neg hblank, if_neg hnewline, if_neg hquote, if_neg hdigit, if_neg hword,
      if_pos hslashes] at hcomment
    exact comment_before (hcomment rfl)
  split
  · exact symbol_before hd _
  · rfl

/-- **A text of a class is cut off whole** before a separator or the end of the text, unless it is a
comment. -/
theorem ofText_spelled {q : Piece} {rest : List Char} (h : q.Spelled (c :: cs))
    (hcomment : q ≠ .comment) (hrest : ∀ d ∈ rest.head?, Separates d) :
    ofText c (cs ++ rest) = ⟨q, c :: cs, rest⟩ := by
  have hlongest : q.Longest (c :: cs) [] := by
    refine ⟨h, fun _ hfront => ?_⟩
    rw [List.append_nil] at hfront
    exact hfront.length_le
  have hcut := ((longest_iff (List.append_nil _)).mp hlongest).2
  have hclosed : q ≠ .unterminated := by
    rintro rfl
    cases h
  cases rest with
  | nil => rwa [List.append_nil]
  | cons d more =>
    rw [ofText_separator (hrest d rfl) (by rwa [hcut])
      (by rw [hcut]; exact fun hq => absurd hq hcomment), hcut]
    rfl

end Cut

end Before

/-! ## Cuts and endings -/

namespace Cut

section Endings

variable {c : Char} {cs : List Char}

theorem not_spelled_longer {p : Piece} {d : Char} {ds : List Char}
    (hrest : (ofText c cs).rest = d :: ds) : ¬ p.Spelled ((ofText c cs).text ++ [d]) := by
  intro h
  have hsum : (ofText c cs).text ++ [d] ++ ds = c :: cs := by
    rw [List.append_assoc, List.singleton_append, ← hrest]
    exact text_append_rest c cs
  have hle := (reaches_of_spelled h hsum).front_le.length_le
  rw [List.length_append, List.length_singleton] at hle
  omega

theorem plain_digits {digits : List Char} (h : Digits digits) :
    ∀ d ∈ digits, d ≠ '/' ∧ d ≠ '"' := by
  intro d hd
  constructor <;> rintro rfl <;> exact absurd (h.2 _ hd) (by decide)

theorem plain_word {word : List Char} (h : ∀ d ∈ word, isWordTail d = true) :
    ∀ d ∈ word, d ≠ '/' ∧ d ≠ '"' := by
  intro d hd
  constructor <;> rintro rfl <;> exact absurd (h _ hd) (by decide)

theorem plain_symbol {symbol : Symbol} (h : symbol ≠ .slash) :
    ∀ d ∈ symbol.text.toList, d ≠ '/' ∧ d ≠ '"' := by
  rcases text_symbol symbol with ⟨d, htext, hsymbol⟩ | ⟨d, s, htext, hsymbol, hlonger⟩
  · rw [htext, List.forall_mem_singleton]
    constructor <;> rintro rfl <;> cases hsymbol
    exact h rfl
  · rw [htext, List.forall_mem_cons, List.forall_mem_singleton]
    refine ⟨?_, by decide⟩
    constructor <;> rintro rfl <;> cases hsymbol
    cases hlonger

/-- Only a newline stands behind a comment: else the comment would go on. -/
theorem newline_of_comment {body ds : List Char} {d : Char}
    (htext : (ofText c cs).text = '/' :: '/' :: body) (h : '\n' ∉ body)
    (hrest : (ofText c cs).rest = d :: ds) : d = '\n' := by
  by_contra hd
  have hlonger : Piece.Spelled .comment ('/' :: '/' :: (body ++ [d])) :=
    .comment (by simp [h, Ne.symm hd])
  refine not_spelled_longer hrest (p := .comment) ?_
  rw [htext]
  exact hlonger

/-- No slash stands behind a slash: else the two would begin a comment. -/
theorem head?_ne_slash (htext : (ofText c cs).text = ['/']) :
    (ofText c cs).rest.head? ≠ some '/' := by
  intro hhead
  obtain ⟨ds, hrest⟩ := List.head?_eq_some_iff.mp hhead
  have hlonger : Piece.Spelled .comment ['/', '/'] := .comment List.not_mem_nil
  refine not_spelled_longer hrest (p := .comment) ?_
  rw [htext]
  exact hlonger

/-- **Only comments, strings and the slash** have slashes or quotes in them. -/
theorem plain_of_spelled {p : Piece} {text : List Char} (h : p.Spelled text)
    (hcomment : p ≠ .comment) (hslash : p ≠ .symbol .slash)
    (hstring : ∀ content, p ≠ .string content) : ∀ d ∈ text, d ≠ '/' ∧ d ≠ '"' := by
  cases h with
  | blank h =>
    rw [List.forall_mem_singleton]
    rcases h with rfl | rfl | rfl <;> decide
  | newline =>
    rw [List.forall_mem_singleton]
    decide
  | comment => exact absurd rfl hcomment
  | symbol symbol => exact plain_symbol fun h => hslash (congrArg Piece.symbol h)
  | string => exact absurd rfl (hstring _)
  | whole h => exact plain_digits h
  | fraction hwhole hfraction =>
    rw [List.forall_mem_append, List.forall_mem_cons]
    exact ⟨plain_digits hwhole, by decide, plain_digits hfraction⟩
  | word hc hcs =>
    refine plain_word (List.forall_mem_cons.mpr ⟨?_, fun d hd => isWordTail_iff.mpr (hcs d hd)⟩)
    exact isWordTail_iff.mpr (hc.imp_left fun h => by simp [Char.isAlphanum, h])

/-- **Endings are found piece by piece:** behind a piece a text ends as it does as a whole, or it is
over there, and its last piece is an open string if that is how it ends. -/
theorem textEnd_rest (c : Char) (cs : List Char) :
    TextEnd.of (ofText c cs).rest = TextEnd.of (c :: cs) ∨ (ofText c cs).rest = [] ∧
      (TextEnd.of (c :: cs) = .string → (ofText c cs).piece = .unterminated) := by
  have hsum : TextEnd.of (c :: cs) =
      (TextEnd.plain.after (ofText c cs).text).after (ofText c cs).rest := by
    rw [← TextEnd.after_append, text_append_rest]
    rfl
  have hplain (h : ∀ d ∈ (ofText c cs).text, d ≠ '/' ∧ d ≠ '"') :
      TextEnd.of (ofText c cs).rest = TextEnd.of (c :: cs) := by
    rw [hsum, TextEnd.plain_after h]
    rfl
  rcases ofText_cases c cs with hspelled | ⟨-, -, hcut⟩ | ⟨hquote, hcut⟩
  · generalize htext : (ofText c cs).text = text at hspelled
    generalize hpiece : (ofText c cs).piece = piece at hspelled
    have hquoteless := plain_of_spelled hspelled
    cases hspelled with
    | @comment body h =>
      have hafter : TextEnd.plain.after ('/' :: '/' :: body) = .comment := TextEnd.comment_after h
      rw [htext, hafter] at hsum
      cases hrest : (ofText c cs).rest with
      | nil =>
        rw [hsum, hrest]
        exact .inr ⟨rfl, nofun⟩
      | cons d ds =>
        rw [hsum, hrest, newline_of_comment htext h hrest]
        exact .inl rfl
    | @string content h =>
      have hafter : TextEnd.plain.after ('"' :: content ++ ['"']) = .plain := by
        rw [TextEnd.after_append]
        exact congrArg (TextEnd.after · ['"']) (TextEnd.string_after h)
      rw [htext, hafter] at hsum
      exact .inl hsum.symm
    | symbol symbol =>
      by_cases hslash : symbol = .slash
      · subst hslash
        rw [htext] at hsum
        rcases TextEnd.slash_after (head?_ne_slash htext) with hafter | hnone
        · exact .inl (hafter.symm.trans hsum.symm)
        · rw [hsum, hnone]
          exact .inr ⟨rfl, nofun⟩
      · exact .inl (hplain (htext ▸ plain_symbol hslash))
    | _ => exact .inl (hplain (htext ▸ hquoteless nofun nofun nofun))
  · rw [hcut]
    exact .inr ⟨rfl, fun _ => rfl⟩
  · refine .inl (hplain ?_)
    rw [hcut, List.forall_mem_singleton]
    refine ⟨?_, hquote⟩
    rintro rfl
    exact not_spelled_of_illegal hcut (.symbol .slash) ⟨cs, rfl⟩

theorem textEnd_of_unterminated (h : (ofText c cs).piece = .unterminated) :
    TextEnd.of (c :: cs) = .string := by
  rcases ofText_cases c cs with hspelled | ⟨rfl, hopen, -⟩ | ⟨-, hcut⟩
  · rw [h] at hspelled
    cases hspelled
  · exact TextEnd.string_after hopen
  · rw [hcut] at h
    cases h

theorem textEnd_of_comment (h : (ofText c cs).piece = .comment) (hrest : (ofText c cs).rest = []) :
    TextEnd.of (c :: cs) = .comment := by
  have hsum := text_append_rest c cs
  rw [hrest, List.append_nil] at hsum
  rcases ofText_cases c cs with hspelled | ⟨-, -, hcut⟩ | ⟨-, hcut⟩
  · rw [h, hsum] at hspelled
    cases hspelled with
    | comment hbody => exact TextEnd.comment_after hbody
  · rw [hcut] at h
    cases h
  · rw [hcut] at h
    cases h

end Endings

theorem item?_ne_eof {cut : Cut} {line : Nat} {t : Token} (h : cut.item? line = some (.token t)) :
    t.kind ≠ .eof := by
  unfold item? at h
  split at h <;> cases h
  case h_7 =>
    show Token.Kind.ofWord _ ≠ .eof
    unfold Token.Kind.ofWord
    split <;> nofun
  all_goals nofun

end Cut

/-! ## Items -/

theorem Cut.item?_unterminated {cut : Cut} (h : cut.piece = .unterminated) (line : Nat) :
    cut.item? line = some (.fault line .unterminatedString) := by
  unfold item?
  rw [h]

namespace Reader

theorem exists_unterminated : ∀ (text : List Char) (line : Nat), TextEnd.of text = .string →
    ∃ l, .fault l .unterminatedString ∈ (Reader.mk text line false).items
  | c :: cs, line, h => by
    rw [items_cons]
    rcases Cut.textEnd_rest c cs with hrest | ⟨-, hopen⟩
    · obtain ⟨l, hl⟩ := exists_unterminated (Cut.ofText c cs).rest
        (line + (Cut.ofText c cs).text.count '\n') (hrest.trans h)
      exact ⟨l, List.mem_append_right _ hl⟩
    · rw [Cut.item?_unterminated (hopen h)]
      exact ⟨_, List.mem_cons_self⟩
termination_by text => text.length
decreasing_by exact Nat.lt_succ_of_le (Cut.length_rest_le c cs)

/-- **Items before a separator:** in place of the end marker stand the items from the separator
on. -/
theorem items_separator {d : Char} (hd : Separates d) (more : List Char) :
    ∀ (text : List Char) (line : Nat), TextEnd.of text ≠ .string →
      (d = '\n' ∨ TextEnd.of text ≠ .comment) →
      ∃ front, (Reader.mk text line false).items =
          front ++ [.token ⟨.eof, "", line + text.count '\n'⟩] ∧
        (∀ t, .token t ∈ front → t.kind ≠ .eof) ∧
        (Reader.mk (text ++ d :: more) line false).items =
          front ++ (Reader.mk (d :: more) (line + text.count '\n') false).items
  | [], line, _, _ => ⟨[], items_nil line, nofun, rfl⟩
  | c :: cs, line, hstring, hcomment => by
    have hbehind {e : TextEnd} (hplain : e ≠ .plain) (h : TextEnd.of (c :: cs) ≠ e) :
        TextEnd.of (Cut.ofText c cs).rest ≠ e := by
      rcases Cut.textEnd_rest c cs with hrest | ⟨hrest, -⟩ <;> rw [hrest]
      · exact h
      · exact hplain.symm
    have hcut : Cut.ofText c (cs ++ d :: more) = (Cut.ofText c cs).before (d :: more) := by
      refine Cut.ofText_separator hd (fun h => hstring (Cut.textEnd_of_unterminated h)) fun h => ?_
      exact hcomment.imp_right fun hplain hrest => hplain (Cut.textEnd_of_comment h hrest)
    have hcount : (c :: cs).count '\n' = (Cut.ofText c cs).text.count '\n' +
        (Cut.ofText c cs).rest.count '\n' := by
      rw [← List.count_append, Cut.text_append_rest]
    obtain ⟨front, hfront, hkinds, hjoined⟩ := items_separator hd more (Cut.ofText c cs).rest
      (line + (Cut.ofText c cs).text.count '\n')
      (hbehind nofun hstring) (hcomment.imp_right (hbehind nofun))
    rw [Nat.add_assoc, ← hcount] at hfront hjoined
    refine ⟨((Cut.ofText c cs).item? (line + (Cut.ofText c cs).text.count '\n')).toList ++ front,
      ?_, ?_, ?_⟩
    · rw [items_cons, hfront, List.append_assoc]
    · intro t ht
      rcases List.mem_append.mp ht with ht | ht
      · exact Cut.item?_ne_eof (Option.mem_toList.mp ht)
      · exact hkinds t ht
    · rw [List.cons_append, items_cons, hcut, List.append_assoc, ← hjoined]
      rfl
termination_by text => text.length
decreasing_by exact Nat.lt_succ_of_le (Cut.length_rest_le c cs)

end Reader

end Lox
