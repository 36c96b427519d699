import Lox.Proofs.Joining.Sessions
import Lox.Proofs.Diagnostics.Texts

/-!
# Where the failures of a session are

A fault that stops a running program is reported with a line of the code that runs, and all code of
a session, also that of functions which earlier texts left behind, is of the tokens of the texts run
so far.  So whatever a session reports points into these texts
(`Session.outcome_pointsInto`): the faults of a text into that text, and a failure on the way to the
line of a token of one of them.
-/

namespace Lox

open Joining Machine

/-- What trees of the tokens of some texts may mention: any identities, and lines of the tokens. -/
def Origin.texts (texts : List (List Char)) : Origin where
  id _ := True
  line line := ∃ text ∈ texts, Token.OnLine (Token.tokens text) line
  function _ := True

theorem Program.from_texts {texts : List (List Char)} {text : List Char} {n n' : NodeId}
    {program : Program} (htext : text ∈ texts)
    (h : Program.ofTokens (Token.tokens text) n = (.ok program, n')) :
    Stmt.AllFrom (.texts texts) program := by
  rw [Stmt.allFrom_iff]
  exact ⟨fun _ _ => trivial, fun line hline =>
    ⟨text, htext, (Stmt.Of.all (Program.of_tokens h)).2 line hline⟩, fun _ _ => trivial⟩

/-- **Whether what a text comes to points into texts:** the faults that it is answered by into the
text itself, a failure while it runs to the line of a token of the text or of an earlier one.  What
else there is to report has no place in a text. -/
inductive Outcome.PointsInto (earlier : List (List Char)) (text : List Char) : Outcome → Prop
  | ok : PointsInto earlier text .ok
  | outOfFuel : PointsInto earlier text .outOfFuel
  | batch {faults : List Diagnostic} (h : ∀ d ∈ faults, d.PointsInto text) :
      PointsInto earlier text (.failed (.batch faults))
  | runtime {source : List Char} {token : Token} {message : String}
      (hsource : source ∈ earlier ++ [text]) (htoken : token.Stands source) :
      PointsInto earlier text (.failed (.runtime token.line message))
  | internal {message : String} : PointsInto earlier text (.failed (.internal message))
  | io {message : String} : PointsInto earlier text (.failed (.io message))

theorem Machine.Fault.diagnostic_cases (fault : Machine.Fault) :
    (∃ line message, fault.line? = some line ∧ fault.diagnostic = .runtime line message) ∨
      (∃ message, fault.diagnostic = .internal message) ∨
      ∃ message, fault.diagnostic = .io message := by
  cases fault with
  | unbound | superNotClass | superWithoutReceiver | receiverNotInstance | unresolved =>
    exact .inr (.inl ⟨_, rfl⟩)
  | sinkFull | sinkClosed => exact .inr (.inr ⟨_, rfl⟩)
  | _ => exact .inl ⟨_, _, rfl, rfl⟩

namespace Session

variable {texts : List (List Char)}

/-- What code of a session may mention whose texts these are. -/
def settingOfTexts (texts : List (List Char)) (m : Machine) : Setting :=
  ⟨m.distances, fun _ => .texts texts, m.sink.flushFails⟩

/-- **Whether all code of a machine is of these texts.** -/
def Holds (texts : List (List Char)) (m : Machine) : Prop :=
  Fits (settingOfTexts texts m) m (oldMarks m)

theorem holds_initial (sink : Sink) (clock : Clock) : Holds [] (initial sink clock).machine :=
  ⟨⟨rfl, fun i f hf => by simp [initial, Machine.initial, Heap.newFrame, Heap.empty] at hf,
    fun i c hc => by simp [initial, Machine.initial, Heap.newFrame, Heap.empty] at hc⟩, rfl, rfl⟩

theorem Holds.more {σ : Setting} {m : Machine} {marks : List Bool} {more : List (List Char)}
    (h : Fits σ m marks) (hσ : ∀ new, σ.origin new = .texts texts) (hmore : texts ⊆ more)
    (distances : Distances) : Holds more { m with distances } := by
  refine ⟨⟨List.length_replicate, fun i f hf => ?_, h.held.methods⟩, rfl, rfl⟩
  have hfrom := h.held.known i f hf
  rw [hσ] at hfrom
  exact hfrom.mono (fun _ _ => trivial)
    (fun _ ⟨text, htext, hline⟩ => ⟨text, hmore htext, hline⟩) fun _ _ => trivial

/-- **A text runs in a session of some texts:** what it comes to points into them and into the text,
and the session is one of all of them. -/
theorem Holds.run {session : Session} (h : Holds texts session.machine) (fuel : Nat)
    (text : List Char) : (session.run fuel text).1.PointsInto texts text ∧
      Holds (texts ++ [text]) (session.run fuel text).2.machine := by
  have hmore : texts ⊆ texts ++ [text] := List.subset_append_left _ _
  rcases check_cases text session.nextId with ⟨-, n', hcheck⟩ | ⟨-, program, distances, n', hcheck⟩
  · rw [run_of_error hcheck]
    exact ⟨.batch fun _ => Static.pointsInto, .more h (fun _ => rfl) hmore _⟩
  · have hspells := (check_eq_ok hcheck).1
    let start : Machine :=
      { session.machine with distances := session.machine.distances.merge distances }
    let σ : Setting := settingOfTexts (texts ++ [text]) start
    have hfrom : Stmt.AllFrom (σ.origin false) program :=
      Program.from_texts (List.mem_append_right _ List.mem_cons_self) hspells
    have hfits : Fits σ start (oldMarks start) := Holds.more h (fun _ => rfl) hmore _
    obtain ⟨m', marks', hfits', -, hends⟩ := program_follows fuel hfrom hfits
    have hheld : Holds (texts ++ [text]) m' :=
      Holds.more hfits' (fun _ => rfl) (List.Subset.refl _) m'.distances
    rw [run_of_ok hcheck, interpret_eq]
    rcases hends with ⟨_, hx, -⟩ | ⟨stop, _, hx, hknown, -⟩
    · rw [hx]
      exact ⟨.ok, hheld⟩
    · rw [hx]
      cases stop with
      | outOfFuel => exact ⟨.outOfFuel, hheld⟩
      | fault fault =>
        refine ⟨?_, hheld⟩
        show Outcome.PointsInto texts text (.failed fault.diagnostic)
        rcases fault.diagnostic_cases with ⟨line, message, hline, hd⟩ | ⟨_, hd⟩ | ⟨_, hd⟩ <;> rw [hd]
        · obtain ⟨source, hsource, token, htoken, rfl⟩ := hknown line hline
          exact .runtime hsource (Token.stands_of_mem_tokens htoken)
        · exact .internal
        · exact .io

theorem Holds.after : ∀ (more : List (Nat × List Char)) {texts : List (List Char)}
    {session : Session}, Holds texts session.machine →
      Holds (texts ++ more.map Prod.snd) (session.after more).machine
  | [], texts, _, h => by
    rw [List.map_nil, List.append_nil]
    exact h
  | (fuel, text) :: more, texts, _, h => by
    have hafter := Holds.after more (h.run fuel text).2
    rwa [List.append_assoc] at hafter

/-- **Whatever a session reports points into its texts.**  Each fault of a text's tokens is on one of
its lines.  Each fault of its syntax and of its names is reported with the line and the lexeme of one
of its tokens, which is never on line 0, and to be at the end exactly if that token is the end marker.
A failure on the way is reported with the line of a token of this text or of one that was run
before. -/
theorem outcome_pointsInto (sink : Sink) (clock : Clock) (texts : List (Nat × List Char))
    (fuel : Nat) (text : List Char) :
    (((initial sink clock).after texts).run fuel text).1.PointsInto (texts.map Prod.snd) text :=
  ((Holds.after texts (holds_initial sink clock)).run fuel text).1

end Session

end Lox
