import Lox.Proofs.Grammar.Program
import Lox.Proofs.Locality.Statements
import Mathlib.Data.List.TakeWhile

/-!
# Positions among tokens

A cursor is `Among` tokens if what it is to read is what is left of them before their first end
marker.  Its `position` is how many tokens have been passed: there the next token is
(`Cursor.Among.peek_eq`), and none before it marks the end (`Cursor.kind_ne_eof_of_passed`).

From any such cursor an expression, a statement and a declaration come to something, and if they do
well they pass a token (`Rule.comes_declaration`).  Where they stop, they stop at the next token.
-/

namespace Lox.Syntax

open Grammar

variable {tokens : List Token} {c c' : Cursor}

/-- How many of some tokens have been passed at a cursor. -/
def Cursor.position (tokens : List Token) (c : Cursor) : Nat :=
  (sourceTokens tokens).length - c.rest.length

/-- Whether a cursor is somewhere among tokens: what is left of those before the first end marker is
what it is to read. -/
structure Cursor.Among (tokens : List Token) (c : Cursor) : Prop where
  rest : c.rest <:+ sourceTokens tokens
  last : c.last = (tokens.dropWhile (·.kind != .eof)).headD implicitEnd

namespace Cursor

theorem sourceTokens_eq_take (tokens : List Token) :
    sourceTokens tokens = tokens.take (sourceTokens tokens).length :=
  List.prefix_iff_eq_take.mp (List.takeWhile_prefix _)

/-- **No end marker has been passed.** -/
theorem kind_ne_eof_of_passed (tokens : List Token) (c : Cursor) :
    ∀ t ∈ tokens.take (c.position tokens), t.kind ≠ .eof := by
  intro t ht
  have hle : c.position tokens ≤ (sourceTokens tokens).length := Nat.sub_le _ _
  have hmem : t ∈ sourceTokens tokens := by
    rw [sourceTokens_eq_take]
    exact List.take_subset_take_left tokens hle ht
  simpa using List.mem_takeWhile_imp hmem

namespace Among

theorem ofTokens (tokens : List Token) (n : NodeId) : (Cursor.ofTokens tokens n).Among tokens :=
  ⟨List.suffix_rfl, rfl⟩

theorem last_kind (h : c.Among tokens) : c.last.kind = .eof := by
  rw [h.last]
  exact last_ofTokens tokens 0

/-- What is left and what has been passed are all tokens before the first end marker. -/
theorem position_add_length (h : c.Among tokens) :
    c.position tokens + c.rest.length = (sourceTokens tokens).length :=
  Nat.sub_add_cancel h.rest.length_le

/-- **The next token** is the one at the position, or the end marker that is added. -/
theorem peek_eq (h : c.Among tokens) :
    c.peek = tokens[c.position tokens]?.getD implicitEnd := by
  have hsplit : tokens = sourceTokens tokens ++ tokens.dropWhile (·.kind != .eof) :=
    List.takeWhile_append_dropWhile.symm
  have hdrop : tokens.drop (c.position tokens) =
      c.rest ++ tokens.dropWhile (·.kind != .eof) := by
    have hle : c.position tokens ≤ (sourceTokens tokens).length := Nat.sub_le _ _
    refine (congrArg (List.drop _) hsplit).trans ?_
    rw [List.drop_append_of_le_length hle]
    exact congrArg (· ++ _) (List.suffix_iff_eq_drop.mp h.rest).symm
  rw [← List.head?_drop, hdrop, Cursor.peek, h.last]
  cases c.rest with
  | nil => rw [List.nil_append, List.headD_nil, List.headD_eq_head?_getD]
  | cons t ts => rfl

theorem passes {ts : List Token} {extra : List Fault} (h : c.Among tokens)
    (hp : c.Passes ts extra c') :
    c'.Among tokens ∧ c'.position tokens = c.position tokens + ts.length := by
  have hamong : c'.Among tokens :=
    ⟨(List.suffix_append ts c'.rest).trans (hp.rest ▸ h.rest), hp.last.trans h.last⟩
  have hlength := hp.length_rest
  have hhere := h.position_add_length
  have hthere := hamong.position_add_length
  exact ⟨hamong, by omega⟩

end Among

end Cursor

namespace Rule

variable {α : Type}

/-- What a rule comes to at a cursor among tokens: a result behind at least one token more, or a
fault at the next token. -/
def Comes (tokens : List Token) (c : Cursor) : EStateM.Result Stop Cursor α → Prop
  | .ok _ c' => c'.Among tokens ∧ c.position tokens < c'.position tokens
  | .error (.fault fault) c' => c'.Among tokens ∧ c.position tokens ≤ c'.position tokens ∧
      fault.token = tokens[c'.position tokens]?.getD Cursor.implicitEnd
  | .error .outOfFuel _ => False

/-- A rule that reads a token and stops at the next one comes to something. -/
theorem comes_of_reads {r : Rule α} {P : Reading α} {bound : Nat} (hc : c.Among tokens)
    (hr : Reads 1 bound r P) (hbound : c.rest.length ≤ bound)
    (hstops : ∀ fault c', r c = .error (.fault fault) c' → fault.token = c'.peek) :
    Comes tokens c (r c) := by
  have hread := hr c hc.last_kind hbound
  rcases hrun : r c with ⟨a, c'⟩ | ⟨fault | _, c'⟩ <;> rw [hrun] at hread
  · obtain ⟨ts, extra, hpasses, hlength, -⟩ := hread
    obtain ⟨hamong, hposition⟩ := hc.passes hpasses
    exact ⟨hamong, by omega⟩
  · obtain ⟨ts, extra, hpasses⟩ := hread
    obtain ⟨hamong, hposition⟩ := hc.passes hpasses
    exact ⟨hamong, by omega, (hstops fault c' hrun).trans hamong.peek_eq⟩
  · exact hread

/-- The place of a cursor itself. -/
def here (c : Cursor) : Spot := ⟨0, [], [], c.last⟩

variable {fuel : Nat}

/-- **Expressions come to something,** with a token or at one. -/
theorem comes_expression (hc : c.Among tokens) (hfuel : c.rest.length + 1 < fuel) :
    Comes tokens c (expression fuel c) :=
  comes_of_reads hc (reads_expression fuel _ hfuel) (Nat.le_refl _)
    ((carries_expression (p := here c) (Nat.le_refl fuel)).stops c)

theorem else_not_next_here (hc : c.Among tokens) :
    nextKind (here c).last.kind (here c).more ≠ .keyword .else := by
  show c.last.kind ≠ _
  rw [hc.last_kind]
  exact Token.Kind.noConfusion

/-- **Declarations come to something.** -/
theorem comes_declaration (hc : c.Among tokens) (hfuel : c.rest.length + 3 < fuel) :
    Comes tokens c (declaration fuel c) :=
  comes_of_reads hc (reads_declaration fuel _ hfuel) (Nat.le_refl _)
    ((ends_declaration (else_not_next_here hc) (Nat.le_refl fuel)).stops c)

/-- **Statements come to something,** with blocks of declarations. -/
theorem comes_statement (hc : c.Among tokens) (hfuel : c.rest.length + 3 < fuel) :
    Comes tokens c (statement (blockOf (declaration fuel) fuel) fuel c) := by
  have hdeclaration := reads_declaration fuel c.rest.length hfuel
  have hblock : ReadsBlock c.rest.length (blockOf (declaration fuel) fuel) := fun _ =>
    (reads_blockOf hdeclaration (by omega)).within (Nat.sub_le _ _)
  have helse := else_not_next_here hc
  exact comes_of_reads hc (reads_statement fuel _ (by omega) hblock) (Nat.le_refl _)
    ((ends_statement helse (ends_blockOf (ends_declaration helse (Nat.le_refl fuel))
      (Nat.le_refl fuel)) (Nat.le_refl fuel)).stops c)

end Rule

end Lox.Syntax
