import Lox.Proofs.Bytes.Passing
import Lox.Proofs.Scanning.Grammar

/-!
# Pieces found byte by byte

Between two characters, the bytes from the cursor on are found to begin with the piece that is cut
off there (`Scan.found_eq`).  There is one lemma for each class of pieces, which follows what its
scan passes.
-/

namespace Lox.Scan

open Utf8

variable {bytes : List UInt8} {front text rest cs : List Char} {c : Char}
  {r r' : ByteReader} {line rounds : Nat}

/-! ## Characters below 128 -/

theorem ascii_isDigit : Ascii Char.isDigit := fun _ hc =>
  Nat.lt_of_le_of_lt (of_decide_eq_true ((Bool.and_eq_true _ _).mp hc).2) (by decide)

theorem ascii_isAlpha : Ascii Char.isAlpha := fun c hc => by
  rcases (Bool.or_eq_true _ _).mp hc with hupper | hlower
  · have hle : c.val ≤ 'Z'.val := (of_decide_eq_true hupper).2
    exact Nat.lt_of_le_of_lt hle (by decide)
  · have hle : c.val ≤ 'z'.val := of_decide_eq_true ((Bool.and_eq_true _ _).mp hlower).2
    exact Nat.lt_of_le_of_lt hle (by decide)

theorem ascii_isWordTail : Ascii Cut.isWordTail := by
  intro c hc
  rcases Cut.isWordTail_iff.mp hc with hword | rfl
  · exact ((Bool.or_eq_true _ _).mp hword).elim (ascii_isAlpha c) (ascii_isDigit c)
  · decide

theorem illegal_of_ge (hc : 128 ≤ c.toNat) : Cut.isBlank c = false ∧ c ≠ '\n' ∧ c ≠ '"' ∧
    c.isDigit = false ∧ Cut.isWordStart c = false ∧ c ≠ '/' ∧ Symbol.ofChar? c = none := by
  have hnot {p : Char → Bool} (hp : Ascii p) : p c = false := by
    rw [Bool.eq_false_iff]
    intro hpc
    have := hp c hpc
    omega
  have hne {d : Char} (hd : d.toNat < 128) : c ≠ d := by
    rintro rfl
    omega
  refine ⟨?_, hne (by decide), hne (by decide), hnot ascii_isDigit, ?_, hne (by decide), ?_⟩
  · rw [Bool.eq_false_iff, ne_eq, Cut.isBlank_iff]
    rintro (rfl | rfl | rfl) <;> exact absurd hc (by decide)
  · rw [Bool.eq_false_iff, ne_eq, Cut.isWordStart_iff]
    rintro (h | rfl)
    · exact Bool.false_ne_true ((hnot ascii_isAlpha).symm.trans h)
    · exact absurd hc (by decide)
  · unfold Symbol.ofChar?
    split <;> first | rfl | exact absurd hc (by decide)

/-! ## What is found -/

/-- The item of what is found, for a lexeme that ends on a line. -/
def Found.item? : Found → List Char → Nat → Option Token.Item
  | .nothing, _, _ => none
  | .token kind, text, line => some (.token ⟨kind, String.ofList text, line⟩)
  | .fault f, _, line => some (.fault line f)

/-- Whether a scan, behind the first part of a piece, finds what a cut has found there and comes to
the end of the piece. -/
def Finds (x : Scan Found) (front text : List Char) (line : Nat) (cut : Cut) : Prop :=
  ∃ found, x (within front text line) =
      pure (found, within front cut.text (line + cut.text.count '\n')) ∧
    ∀ line, found.item? cut.text line = cut.item? line

/-- What is found does not depend on how the place is reached. -/
theorem Finds.congr {x y : Scan Found} {text text' : List Char} {cut : Cut}
    (h : y (within front text line) = x (within front text' line))
    (hx : Finds x front text' line cut) : Finds y front text line cut := by
  unfold Finds
  rwa [h]

theorem within_of_count (h : text.count '\n' = 0) :
    within front text (line + text.count '\n') = within front text line := by
  rw [h]
  rfl

theorem count_ascii {p : Char → Bool} (hp : p '\n' = false) (hc : c ≠ '\n') :
    (c :: cs.takeWhile p).count '\n' = 0 := by
  rw [List.count_eq_zero, List.mem_cons, not_or]
  refine ⟨hc.symm, fun h => ?_⟩
  have hnewline := List.mem_takeWhile_imp h
  rw [hp] at hnewline
  cases hnewline

/-! ## Words and numbers -/

theorem finds_word (h : Holds bytes front [c] cs) (hrounds : bytes.length < rounds)
    (hc : c ≠ '\n') : Finds (word bytes rounds) front [c] line (Cut.word c cs) := by
  have hmore : Holds bytes front (c :: cs.takeWhile Cut.isWordTail)
      (cs.dropWhile Cut.isWordTail) := by
    rw [← List.takeWhile_append_dropWhile (p := Cut.isWordTail) (l := cs)] at h
    exact h.more
  refine ⟨.token (.ofWord (String.ofList (c :: cs.takeWhile Cut.isWordTail))), ?_, fun _ => rfl⟩
  unfold word Cut.word
  rw [within_of_count (count_ascii rfl hc),
    bind_of_pure (passWhile_within ascii_isWordTail rfl h (h.length_lt hrounds))]
  exact bind_of_pure (lexeme_within hmore)

theorem seen_fraction (line : Nat) (h : Holds bytes front text rest) :
    seen bytes ((within front text line).cursor + 0) = '.' ∧
      (seen bytes ((within front text line).cursor + 1)).isDigit = true ↔
    ∃ ds, rest = '.' :: ds ∧ ds.head?.any Char.isDigit = true := by
  rw [← beq_iff_eq, h.seen (p := (· == '.')) (Ascii.beq (by decide)) (by decide)]
  cases rest with
  | nil => simp
  | cons e rest =>
    by_cases he : e = '.'
    · subst he
      have hmore : Holds bytes front (text ++ ['.']) rest := h.more
      have hdigit : (seen bytes ((within front (text ++ ['.']) line).cursor + 0)).isDigit =
          rest.head?.any Char.isDigit := hmore.seen ascii_isDigit rfl
      rw [within_append_ascii (by decide)] at hdigit
      rw [hdigit]
      simp
    · simp [he]

theorem cut_fraction {ds : List Char} (h : cs.dropWhile Char.isDigit = '.' :: ds)
    (hds : ds.head?.any Char.isDigit = true) : Cut.number c cs = ⟨.number,
      c :: cs.takeWhile Char.isDigit ++ '.' :: ds.takeWhile Char.isDigit,
      ds.dropWhile Char.isDigit⟩ := by
  cases ds with
  | nil => exact absurd hds Bool.false_ne_true
  | cons d ds =>
    have hd : d.isDigit = true := by simpa using hds
    unfold Cut.number
    rw [h, List.takeWhile_cons_of_pos hd, List.dropWhile_cons_of_pos hd]
    exact if_pos hd

theorem cut_whole (h : ¬ ∃ ds, cs.dropWhile Char.isDigit = '.' :: ds ∧
    ds.head?.any Char.isDigit = true) : Cut.number c cs =
      ⟨.number, c :: cs.takeWhile Char.isDigit, cs.dropWhile Char.isDigit⟩ := by
  unfold Cut.number
  dsimp only
  split
  · next d ds hrest =>
    rw [if_neg fun hd => h ⟨d :: ds, hrest, by simpa using hd⟩, hrest]
  · rfl

theorem finds_number (h : Holds bytes front [c] cs) (hrounds : bytes.length < rounds)
    (hc : c ≠ '\n') : Finds (number bytes rounds) front [c] line (Cut.number c cs) := by
  have hwhole : Holds bytes front (c :: cs.takeWhile Char.isDigit)
      (cs.dropWhile Char.isDigit) := by
    rw [← List.takeWhile_append_dropWhile (p := Char.isDigit) (l := cs)] at h
    exact h.more
  have hpassed : passWhile bytes Char.isDigit rounds (within front [c] line) =
      pure ((), within front (c :: cs.takeWhile Char.isDigit) line) :=
    passWhile_within ascii_isDigit rfl h (h.length_lt hrounds)
  have hseen := seen_fraction line hwhole
  have hcount : (c :: cs.takeWhile Char.isDigit).count '\n' = 0 := count_ascii rfl hc
  unfold Finds number
  rw [bind_of_pure hpassed, bind_of_pure (look_eq 0), bind_of_pure (look_eq 1)]
  by_cases hnext : ∃ ds, cs.dropWhile Char.isDigit = '.' :: ds ∧ ds.head?.any Char.isDigit = true
  · rw [if_pos (hseen.mpr hnext)]
    obtain ⟨ds, hrest, hds⟩ := hnext
    rw [hrest] at hwhole
    have hpoint : Holds bytes front (c :: cs.takeWhile Char.isDigit ++ ['.']) ds := hwhole.more
    have hdigits : passWhile bytes Char.isDigit rounds (within front _ line) = _ :=
      passWhile_within ascii_isDigit rfl hpoint (hpoint.length_lt hrounds)
    rw [List.append_assoc] at hdigits
    have hall : Holds bytes front (c :: cs.takeWhile Char.isDigit ++ '.' ::
        ds.takeWhile Char.isDigit) (ds.dropWhile Char.isDigit) := by
      rw [← List.takeWhile_append_dropWhile (p := Char.isDigit) (l := ds)] at hwhole
      exact hwhole.more
    rw [bind_of_pure (advance_within hwhole (by decide)), bind_of_pure hdigits,
      cut_fraction hrest hds]
    refine ⟨.token (.number (Number.read _)), ?_, fun _ => rfl⟩
    rw [within_of_count (by rw [List.count_append, hcount, count_ascii rfl (by decide)])]
    exact bind_of_pure (lexeme_within hall)
  · rw [if_neg (mt hseen.mp hnext), cut_whole hnext]
    refine ⟨.token (.number (Number.read _)), ?_, fun _ => rfl⟩
    rw [within_of_count hcount]
    exact bind_of_pure (lexeme_within hwhole)

/-! ## Strings -/

theorem content_within (h : Holds bytes front ('"' :: text ++ ['"']) rest) :
    slice bytes ((within front ('"' :: text ++ ['"']) line).start + 1)
      ((within front ('"' :: text ++ ['"']) line).cursor - 1) r = pure (text, r) := by
  have hquote : (String.utf8EncodeChar '"').length = 1 := length_encode (by decide)
  have hcontent : Holds bytes (front ++ ['"']) text ('"' :: rest) := by
    rw [Holds, h]
    simp
  have hstart : (within front ('"' :: text ++ ['"']) line).start + 1 =
      (encode (front ++ ['"'])).length := by
    simp [within, hquote]
  have hlast : (within front ('"' :: text ++ ['"']) line).cursor - 1 =
      (encode (front ++ ['"'] ++ text)).length := by
    simp [within, hquote]
    omega
  rw [hstart, hlast]
  exact slice_eq hcontent

theorem finds_string (h : Holds bytes front ['"'] cs) (hrounds : bytes.length < rounds) :
    Finds (string bytes rounds) front ['"'] line (Cut.string '"' cs) := by
  have hpassed : passString bytes rounds (within front ['"'] line) =
      pure ((), within front ('"' :: cs.takeWhile (· != '"'))
        (line + (cs.takeWhile (· != '"')).count '\n')) := passString_within h hrounds
  have hsplit := List.takeWhile_append_dropWhile (p := (· != '"')) (l := cs)
  have hcontent : Holds bytes front ('"' :: cs.takeWhile (· != '"'))
      (cs.dropWhile (· != '"')) := by
    rw [← hsplit] at h
    exact h.more
  unfold Finds string
  rw [bind_of_pure hpassed, bind_of_pure (atEnd_within hcontent)]
  unfold Cut.string
  cases hrest : cs.dropWhile (· != '"') with
  | nil =>
    rw [hrest, List.append_nil] at hsplit
    rw [hsplit]
    exact ⟨.fault .unterminatedString, rfl, fun _ => rfl⟩
  | cons quote rest =>
    obtain rfl : quote = '"' := by
      have hne : cs.dropWhile (· != '"') ≠ [] := by rw [hrest]; exact List.cons_ne_nil _ _
      simpa [hrest] using List.head_dropWhile_not (· != '"') hne
    rw [hrest] at hcontent
    have hclosed : Holds bytes front ('"' :: cs.takeWhile (· != '"') ++ ['"']) rest :=
      hcontent.more
    refine ⟨.token (.string (String.ofList (cs.takeWhile (· != '"')))), ?_, fun _ => rfl⟩
    rw [if_neg (by simp), bind_of_pure (advance_within hcontent (by decide)), bind_of_pure rfl,
      bind_of_pure (content_within hclosed)]
    simp only [List.count_append, List.count_cons]
    rfl

/-! ## Symbols and comments -/

theorem cut_longer {s longer : Symbol} (h : s.withEqual? = some longer) :
    Cut.symbol c s ('=' :: cs) = ⟨.symbol longer, [c, '='], cs⟩ := by
  unfold Cut.symbol
  rw [h]
  rfl

theorem cut_short {s : Symbol} (h : cs.head? = some '=' → s.withEqual? = none) :
    Cut.symbol c s cs = ⟨.symbol s, [c], cs⟩ := by
  unfold Cut.symbol
  split
  · next hlonger =>
    rw [h rfl] at hlonger
    cases hlonger
  · rfl

theorem finds_symbol {s : Symbol} (h : Holds bytes front [c] cs) (hc : c ≠ '\n') :
    Finds (symbol bytes s) front [c] line (Cut.symbol c s cs) := by
  have hequal := accept_within (d := '=') line h (by decide) (by decide)
  have hcount : [c].count '\n' = 0 := by simp [hc]
  unfold Finds symbol
  cases hlonger : s.withEqual? with
  | none =>
    rw [cut_short fun _ => hlonger, within_of_count hcount]
    exact ⟨.token (.symbol s), rfl, fun _ => rfl⟩
  | some longer =>
    dsimp only
    by_cases hnext : cs.head? = some '='
    · rw [if_pos hnext] at hequal
      obtain ⟨cs, rfl⟩ := List.head?_eq_some_iff.mp hnext
      have hcount' : [c, '='].count '\n' = 0 := by simp [hc]
      rw [bind_of_pure hequal, cut_longer hlonger, within_of_count hcount']
      exact ⟨.token (.symbol longer), rfl, fun _ => rfl⟩
    · rw [if_neg hnext] at hequal
      rw [bind_of_pure hequal, cut_short fun hnext' => absurd hnext' hnext,
        within_of_count hcount]
      exact ⟨.token (.symbol s), rfl, fun _ => rfl⟩

theorem comment_within (h : Holds bytes front text rest) :
    comment bytes (within front text line) =
      pure (.nothing, within front (text ++ rest.takeWhile (· != '\n')) line) := by
  have hbytes : bytesFrom bytes (within front text line).cursor (within front text line) =
      pure (encode rest, within front text line) := by
    have hrest : bytes.drop (within front text line).cursor = encode rest := by
      rw [h.eq_append]
      exact List.drop_left
    unfold bytesFrom
    rw [hrest, if_pos (by simp [h.eq_append, within])]
    rfl
  have hcursor : ((encode rest).findIdx? (charOf · == '\n')).elim bytes.length
      ((encode (front ++ text)).length + ·) =
      (encode (front ++ (text ++ rest.takeWhile (· != '\n')))).length := by
    have htaken : (encode rest).takeWhile (! charOf · == '\n') =
        encode (rest.takeWhile (· != '\n')) := takeWhile_encode (by decide) rest
    rw [h.eq_append, List.length_append, elim_findIdx?, htaken, ← List.length_append,
      ← encode_append, List.append_assoc]
  unfold comment
  rw [bind_of_pure rfl, bind_of_pure hbytes, bind_of_pure rfl]
  unfold within
  rw [← hcursor]
  rfl

theorem finds_comment (h : Holds bytes front ['/', '/'] cs) :
    Finds (comment bytes) front ['/', '/'] line (Cut.comment '/' ('/' :: cs)) := by
  have hcount : ('/' :: ('/' :: cs).takeWhile (· != '\n')).count '\n' = 0 :=
    count_ascii rfl (by decide)
  unfold Finds Cut.comment
  rw [within_of_count hcount]
  exact ⟨.nothing, comment_within h, fun _ => rfl⟩

/-- A slash begins a comment if another one follows, and else is a symbol. -/
theorem finds_slash (h : Holds bytes front ['/'] cs) :
    Finds (do if ← accept bytes '/' then comment bytes else symbol bytes .slash) front ['/'] line
      (if cs.head? = some '/' then Cut.comment '/' cs else Cut.symbol '/' .slash cs) := by
  have hslash := accept_within (d := '/') line h (by decide) (by decide)
  by_cases hnext : cs.head? = some '/'
  · rw [if_pos hnext] at hslash
    rw [if_pos hnext]
    obtain ⟨cs, rfl⟩ := List.head?_eq_some_iff.mp hnext
    have hmore : Holds bytes front (['/'] ++ ['/']) cs := h.more
    exact .congr (x := comment bytes) (bind_of_pure hslash) (finds_comment hmore)
  · rw [if_neg hnext] at hslash
    rw [if_neg hnext]
    exact .congr (x := symbol bytes .slash) (bind_of_pure hslash) (finds_symbol h (by decide))

theorem eq_slash_of_ofChar? (h : Symbol.ofChar? c = some .slash) : c = '/' := by
  unfold Symbol.ofChar? at h
  split at h <;> cases h
  rfl

/-! ## Illegal characters -/

theorem unexpected_eq (h : bytes = encode (front ++ c :: cs)) (hr : r.start = (encode front).length)
    (hline : r.line = line) : unexpected bytes r =
      pure (.fault (.unexpectedCharacter c), within front [c] line) := by
  have hrest : slice bytes r.start bytes.length r = pure (c :: cs, r) := by
    have hall : Holds bytes front (c :: cs) [] := by rw [Holds, h, List.append_nil]
    have hslice : slice bytes _ _ r = _ := slice_eq hall
    rwa [← hr, ← h] at hslice
  have hbehind : (encode front).length + c.utf8Size = (encode (front ++ [c])).length := by
    simp [String.length_utf8EncodeChar]
  unfold unexpected within
  rw [bind_of_pure rfl, bind_of_pure hrest, bind_of_pure rfl, ← hbehind, ← hr, ← hline]
  rfl

theorem ofText_of_ge (hc : 128 ≤ c.toNat) : Cut.ofText c cs = ⟨.illegal c, [c], cs⟩ := by
  obtain ⟨hblank, hnewline, hquote, hdigit, hword, hslash, hsymbol⟩ := illegal_of_ge hc
  unfold Cut.ofText
  rw [hblank, if_neg Bool.false_ne_true, if_neg hnewline, if_neg hquote, hdigit,
    if_neg Bool.false_ne_true, hword, if_neg Bool.false_ne_true,
    if_neg fun hcomment => hslash hcomment.1, hsymbol]

theorem found_of_advance_ge (hc : 128 ≤ c.toNat) (h : advance bytes r = pure (c, r')) :
    found bytes rounds r = unexpected bytes r' := by
  obtain ⟨hblank, hnewline, hquote, hdigit, hword, -, hsymbol⟩ := illegal_of_ge hc
  unfold found
  rw [bind_of_pure h, hblank, if_neg Bool.false_ne_true, if_neg hnewline, if_neg hquote, hdigit,
    if_neg Bool.false_ne_true, hword, if_neg Bool.false_ne_true, hsymbol]

/-! ## Every piece -/

theorem found_of_lt (h : bytes = encode (front ++ c :: cs)) (hrounds : bytes.length < rounds)
    (hc : c.toNat < 128) : Finds (found bytes rounds) front [] line (Cut.ofText c cs) := by
  have hfirst : Holds bytes front [c] cs := h
  have hpassed : advance bytes (within front [] line) = pure (c, within front [c] line) :=
    advance_within h hc
  refine .congr (bind_of_pure hpassed) ?_
  unfold Cut.ofText
  split
  · next hblank =>
    have hnewline : c ≠ '\n' := by
      rintro rfl
      cases hblank
    unfold Finds
    rw [within_of_count (by simp [hnewline])]
    exact ⟨.nothing, rfl, fun _ => rfl⟩
  split
  · next hnewline =>
    subst hnewline
    exact ⟨.nothing, rfl, fun _ => rfl⟩
  next hnewline =>
  split
  · next hquote =>
    subst hquote
    exact finds_string hfirst hrounds
  split
  · exact finds_number hfirst hrounds hnewline
  split
  · exact finds_word hfirst hrounds hnewline
  cases hsymbol : Symbol.ofChar? c with
  | none =>
    have hslash : c ≠ '/' := by
      rintro rfl
      cases hsymbol
    unfold Finds
    rw [if_neg fun hcomment => hslash hcomment.1, within_of_count (by simp [hnewline])]
    exact ⟨_, unexpected_eq h rfl rfl, fun _ => rfl⟩
  | some s =>
    by_cases hs : s = .slash
    · subst hs
      obtain rfl := eq_slash_of_ofChar? hsymbol
      simpa using finds_slash hfirst
    · have hslash : c ≠ '/' := by
        rintro rfl
        cases hsymbol
        exact hs rfl
      dsimp only
      rw [if_neg hs, if_neg fun hcomment => hslash hcomment.1]
      exact finds_symbol hfirst hnewline

/-- What begins with another character: its first byte is not below 128 either. -/
theorem found_of_ge {lead : UInt8} {tail : List UInt8} (h : bytes = encode (front ++ c :: cs))
    (hc : 128 ≤ c.toNat) (hencode : String.utf8EncodeChar c = lead :: tail)
    (hlead : 192 ≤ lead.toNat) : Finds (found bytes rounds) front [] line (Cut.ofText c cs) := by
  have hbytes : bytes = encode front ++ lead :: (tail ++ encode cs) := by
    rw [h, encode_append, encode_cons, hencode]
    rfl
  have hfirst : advance bytes (within front [] line) = pure (charOf lead,
      { within front [] line with cursor := (within front [] line).cursor + 1 }) := by
    rw [hbytes]
    exact advance_eq (by simp [within])
  have hbyte : 128 ≤ (charOf lead).toNat := by
    rw [toNat_charOf]
    omega
  have hnewline : c ≠ '\n' := (illegal_of_ge hc).2.1
  unfold Finds
  rw [ofText_of_ge hc, within_of_count (by simp [hnewline]), found_of_advance_ge hbyte hfirst]
  exact ⟨_, unexpected_eq h rfl rfl, fun _ => rfl⟩

/-- **What is found byte by byte** is what is cut off the text. -/
theorem found_eq (h : bytes = encode (front ++ c :: cs)) (hrounds : bytes.length < rounds) :
    Finds (found bytes rounds) front [] line (Cut.ofText c cs) := by
  rcases encode_cases c with ⟨-, -, -, hc⟩ | ⟨lead, tail, hencode, hc, hlead, -⟩
  · exact found_of_lt h hrounds hc
  · exact found_of_ge h hc hencode hlead

end Lox.Scan
