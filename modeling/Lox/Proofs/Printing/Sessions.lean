import Lox.Proofs.Printing.Numbers
import Lox.Proofs.Sessions
import Lox.Proofs.Writing

/-!
# Printed numbers in programs

A text reads back as a double (`Number.ReadsBack`) if it has no tokens but those of a literal and
its sign, if the expression that these are comes to the double, bit by bit, and if a program that
prints this expression writes the text again.  So does what a print statement writes for a finite
double, be it written as an integer or by its shortest digits (`Number.printed_reads_back`).
-/

namespace Lox

open Binary64 (isNegative magnitudeBits)

namespace Number

variable {x : Float}

/-! ## Texts with a printed number -/

/-- The end marker on the first line. -/
abbrev endMarker : Token := ⟨.eof, "", 1⟩

/-- A semicolon on the first line. -/
abbrev semicolon : Token := ⟨.symbol .semicolon, ";", 1⟩

/-- The text of a program that prints what another text spells. -/
abbrev printing (text : List Char) : List Char :=
  "print ".toList ++ text ++ [';']

theorem items_printed (h : x.isFinite = true) :
    Token.items (printed x) = (tokens x 1 ++ [endMarker]).map .token := by
  have hitems := Reader.items_printed h [] nofun 1
  rw [List.append_nil, Reader.items_nil] at hitems
  rw [List.map_append]
  exact hitems

theorem items_statement (h : x.isFinite = true) :
    Token.items (printed x ++ [';']) = (tokens x 1 ++ [semicolon, endMarker]).map .token := by
  have hseparates : Separates ';' := by constructor <;> decide
  have hitems := Reader.items_printed h [';'] (by simpa using hseparates) 1
  have hrest : (Reader.mk [';'] 1 false).items = .token semicolon :: _ := Reader.items_cons ';' [] 1
  rw [List.map_append]
  exact hitems.trans (congrArg _ (hrest.trans (congrArg _ (Reader.items_nil 1))))

theorem items_printing (h : x.isFinite = true) :
    Token.items (printing (printed x)) =
      (⟨.keyword .print, "print", 1⟩ :: tokens x 1 ++ [semicolon, endMarker]).map .token := by
  have hcut (rest : List Char) : Cut.ofText 'p' ("rint ".toList ++ rest) =
    ⟨.word, "print".toList, ' ' :: rest⟩ := rfl
  have hblank (rest : List Char) : Cut.ofText ' ' rest = ⟨.blank, [' '], rest⟩ := rfl
  have hword : Token.Kind.ofWord "print" = .keyword .print := Piece.ofWord_keyword .print
  show (Reader.mk ('p' :: ("rint ".toList ++ (printed x ++ [';']))) 1 false).items = _
  rw [Reader.items_cons, hcut, Reader.items_cons, hblank]
  show .token ⟨.ofWord "print", "print", 1⟩ :: Token.items (printed x ++ [';']) = _
  rw [hword, items_statement h]
  rfl

/-! ## Programs with a printed number -/

/-- The expression that the text of a double spells on the first line. -/
def expr (x : Float) : Expr :=
  if isNegative x then .unary .negate 1 (.literal (.number (-x))) else .literal (.number x)

/-- **The expression comes to the double again,** also if that is a negative zero. -/
theorem evaluate_expr (h : x.isFinite = true) (fuel : Nat) (m : Machine) :
    Machine.evaluate (fuel + 2) (expr x) m = .ok (.number x) m := by
  unfold expr
  split
  · show EStateM.Result.ok (Value.number (- -x)) m = _
    rw [Binary64.neg_neg_of_isFinite h]
  · rfl

theorem expression_tokens (x : Float) (fuel : Nat) (nextId : NodeId) :
    Syntax.Rule.expression (fuel + 4) (.ofTokens (tokens x 1 ++ [endMarker]) nextId) =
      .ok (expr x) ⟨[], endMarker, nextId, []⟩ := by
  unfold tokens expr
  split <;> rfl

theorem ofTokens_statement (x : Float) (nextId : NodeId) :
    Program.ofTokens (tokens x 1 ++ [semicolon, endMarker]) nextId =
      (.ok [.expr (expr x)], nextId) := by
  unfold tokens expr
  split <;> rfl

theorem ofTokens_printing (x : Float) (nextId : NodeId) :
    Program.ofTokens (⟨.keyword .print, "print", 1⟩ :: tokens x 1 ++ [semicolon, endMarker])
      nextId = (.ok [.print (expr x)], nextId) := by
  unfold tokens expr
  split <;> rfl

theorem resolve_printing (x : Float) : Program.resolve [.print (expr x)] = .ok [] := by
  unfold expr
  split <;> rfl

theorem programOf_statement (h : x.isFinite = true) (nextId : NodeId) :
    Session.programOf (printed x ++ [';']) nextId = (.ok [.expr (expr x)], nextId) := by
  obtain ⟨htokens, hfaults⟩ := Token.tokens_of_items (items_statement h)
  rw [Session.programOf, htokens, hfaults, ofTokens_statement]
  rfl

theorem check_printing (h : x.isFinite = true) (nextId : NodeId) :
    Session.check (printing (printed x)) nextId = (.ok ([.print (expr x)], []), nextId) := by
  obtain ⟨htokens, hfaults⟩ := Token.tokens_of_items (items_printing h)
  rw [Session.check, Session.programOf, htokens, hfaults, ofTokens_printing]
  show ((Program.resolve [.print (expr x)]).map _, nextId) = _
  rw [resolve_printing]
  rfl

theorem display_number (heap : Heap) (x : Float) :
    heap.display (.number x) = String.ofList (printed x) := rfl

/-- **To print a printed number is to write its text again.** -/
theorem run_printing (h : x.isFinite = true) (session : Session) (fuel : Nat) :
    let line := (String.ofList (printed x) ++ "\n").toUTF8
    let ends := session.run (fuel + 3) (printing (printed x))
    ends.2.machine.sink = (session.machine.sink.write line).1 ∧
      (ends.1 = .ok ↔
        (session.machine.sink.write line).2 = true ∧ session.machine.sink.flushFails = false) := by
  have hends := Machine.interpret_print (evaluate_expr h fuel session.machine)
  rw [display_number] at hends
  rw [Session.run_of_ok (check_printing h session.nextId)]
  exact hends

/-! ## Reading back -/

/-- Whether a text reads back as a double. -/
structure ReadsBack (text : List Char) (x : Float) : Prop where
  /-- Without a sign all of the text is one number, which is the double. -/
  literal : isNegative x = false →
    Token.items text = [.token ⟨.number x, String.ofList text, 1⟩, .token ⟨.eof, "", 1⟩]
  /-- With a sign there is a minus sign, and what follows is a number: the double without its
  sign. -/
  negated : isNegative x = true → ∃ literal, text = '-' :: literal ∧
    Token.items text =
      [.token ⟨.symbol .minus, "-", 1⟩, .token ⟨.number (-x), String.ofList literal, 1⟩,
        .token ⟨.eof, "", 1⟩]
  /-- The tokens are an expression, as are those of a statement with the text, and the expression
  comes to the double. -/
  value : ∃ e : Expr,
    (∀ fuel nextId, Syntax.Rule.expression (fuel + 4) (.ofTokens (Token.tokens text) nextId) =
      .ok e ⟨[], ⟨.eof, "", 1⟩, nextId, []⟩) ∧
    (∀ nextId, Session.programOf (text ++ [';']) nextId = (.ok [.expr e], nextId)) ∧
    ∀ fuel m, Machine.evaluate (fuel + 2) e m = .ok (.number x) m
  /-- A program that prints the expression writes the text as a line, in any session, and ends well
  if the sink takes the line and can be flushed. -/
  again : ∀ (session : Session) (fuel : Nat),
    let line := (String.ofList text ++ "\n").toUTF8
    let ends := session.run (fuel + 3) (printing text)
    ends.2.machine.sink = (session.machine.sink.write line).1 ∧
      (ends.1 = .ok ↔
        (session.machine.sink.write line).2 = true ∧ session.machine.sink.flushFails = false)

theorem readsBack_printed (h : x.isFinite = true) : ReadsBack (printed x) x where
  literal hsign := by
    rw [items_printed h, printed_eq h, tokens, hsign]
    rfl
  negated hsign := by
    refine ⟨magnitudeText (magnitudeBits x), by rw [printed_eq h, hsign]; rfl, ?_⟩
    rw [items_printed h, tokens, hsign]
    rfl
  value := by
    refine ⟨expr x, fun fuel nextId => ?_, programOf_statement h, evaluate_expr h⟩
    rw [(Token.tokens_of_items (items_printed h)).1]
    exact expression_tokens x fuel nextId
  again := run_printing h

/-- **Printed numbers read back.**  Wherever the value of an expression is a finite double, a print
statement writes one text for it.  This text reads back as the double, whatever it is, the sign of a
zero included; and if the double is a whole number below `10¹⁵`, up to its sign, the text is that
sign and all digits of the number. -/
theorem printed_reads_back (h : x.isFinite = true) :
    (∀ (e : Expr) (fuel : Nat) (m m' : Machine), Machine.evaluate fuel e m = .ok (.number x) m' →
      Machine.execute (fuel + 1) (.print e) m =
        (Machine.Run.writeLine (String.ofList (printed x)) >>= fun _ => pure .normal) m') ∧
    ReadsBack (printed x) x ∧
    ∀ n : Nat, n < 10 ^ 15 → Binary64.value (magnitudeBits x) = n →
      printed x = signed (isNegative x) (Nat.toDigits 10 n) := by
  refine ⟨fun e fuel m m' he => ?_, readsBack_printed h, fun n => printed_whole h⟩
  rw [Machine.execute_print he, display_number]

/-- A zero with a sign. -/
theorem printed_reads_back_negative_zero :
    let x := Float.ofBits 0x8000000000000000
    x.isFinite = true ∧ printed x = "-0".toList ∧
      Token.items "-0".toList = [.token ⟨.symbol .minus, "-", 1⟩,
        .token ⟨.number (-x), "0", 1⟩, .token ⟨.eof, "", 1⟩] ∧
      ((Session.initial .unbounded (.constant 0)).run 3 "print -0;".toList).2.machine.sink.written =
        "-0\n".toUTF8 := by
  intro x
  have hfinite : x.isFinite = true := by decide +kernel
  obtain ⟨-, hreads, hwhole⟩ := printed_reads_back hfinite
  have hzero : magnitudeBits x = 0 := by decide +kernel
  have hsign : isNegative x = true := by decide +kernel
  have htext : printed x = "-0".toList := by
    rw [hwhole 0 (by decide) (by rw [hzero, Binary64.value_zero, Nat.cast_zero]), hsign]
    rfl
  rw [htext] at hreads
  obtain ⟨literal, hliteral, hitems⟩ := hreads.negated hsign
  obtain rfl : literal = ['0'] := (List.cons.inj hliteral).2.symm
  refine ⟨hfinite, htext, hitems, ?_⟩
  have hagain := (hreads.again (.initial .unbounded (.constant 0)) 0).1
  exact (congrArg Sink.written hagain).trans (by decide +kernel)

end Number

end Lox
