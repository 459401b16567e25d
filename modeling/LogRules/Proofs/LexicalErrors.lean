import LogRules.Proofs.Scanning

/-!
What scanning reports: problems of syntax and no others, at places that it comes to.
-/
namespace LogRules

def Problem.IsSyntactic (problem : Problem) : Prop := ∃ message, problem = .syntactic message

/-- Errors of syntax only. -/
def AllSyntactic (errors : List Diagnostic) : Prop := ∀ d ∈ errors, d.problem.IsSyntactic

/-- Errors of syntax at places in `S`. -/
def SyntacticIn (S : Position → Prop) (errors : List Diagnostic) : Prop :=
  ∀ d ∈ errors, S d.position ∧ d.problem.IsSyntactic

namespace SyntacticIn

variable {S : Position → Prop} {p : Position} {errors more : List Diagnostic}

theorem nil : SyntacticIn S [] := fun _ hd => absurd hd List.not_mem_nil

theorem cons (hp : S p) (message : String) (h : SyntacticIn S errors) :
    SyntacticIn S (.syntactic p message :: errors) := by
  intro d hd
  obtain rfl | hd := List.mem_cons.mp hd
  exacts [⟨hp, message, rfl⟩, h d hd]

theorem single (hp : S p) (message : String) : SyntacticIn S [.syntactic p message] :=
  nil.cons hp message

theorem append (h : SyntacticIn S errors) (h' : SyntacticIn S more) :
    SyntacticIn S (errors ++ more) :=
  fun d hd => (List.mem_append.mp hd).elim (h d) (h' d)

end SyntacticIn

namespace Cursor

variable {S : Position → Prop} {cursor : Cursor}

/-- All places from the cursor on are in `S`. -/
def StaysIn (S : Position → Prop) (cursor : Cursor) : Prop :=
  ∀ ahead, cursor.GoesTo ahead → S ahead.position

theorem StaysIn.here (h : cursor.StaysIn S) : S cursor.position := h cursor (.refl cursor)

theorem StaysIn.ahead {further : Cursor} (h : cursor.StaysIn S) (hgoes : cursor.GoesTo further) :
    further.StaysIn S :=
  fun _ hmore => h _ (hgoes.trans hmore)

theorem syntactic_trivia (h : cursor.StaysIn S) : SyntacticIn S cursor.trivia.1 := by
  induction cursor using trivia_induction with
  | ends p => exact .nil
  | line p rest ih =>
    rw [trivia_line]
    exact ih (h.ahead (goesTo_behindLine _))
  | block p rest behind hclose ih =>
    rw [trivia_block, hclose]
    exact ih (h.ahead ((goesTo_bodyStart p rest).trans (goesTo_closeComment hclose)))
  | unclosed p rest hclose =>
    rw [trivia_block, hclose]
    exact .single h.here _
  | blank p c rest hblank ih =>
    rw [trivia_blank p hblank]
    exact ih (h.ahead (goesTo_next p c rest))
  | starts p text hstarts =>
    rw [trivia_of_startsToken p hstarts]
    exact .nil

end Cursor

namespace Scan

open Cursor

variable {S : Position → Prop} {start : Position} {cursor : Cursor}

/-- Escapes that cannot be read are reported where they stand, a missing end at the start. -/
theorem syntactic_stringBody (hstart : S start) (fuel : Nat) (h : cursor.StaysIn S) :
    SyntacticIn S (stringBody start fuel cursor).errors := by
  induction fuel generalizing cursor with
  | zero => exact .single hstart _
  | succ fuel ih =>
    rw [stringBody]
    split
    · exact .single hstart _
    · exact .nil
    · exact .single hstart _
    · split_ifs
      · have hescape := (goesTo_skip 2 cursor).trans (goesTo_unicodeEscape (cursor.skip 2))
        split
        · next heq =>
          rw [heq] at hescape
          exact ih (h.ahead hescape)
        · next heq =>
          rw [heq] at hescape
          exact .cons h.here _ (ih (h.ahead hescape))
      · have hbehind := ih (h.ahead (goesTo_skip 2 cursor))
        split
        exacts [hbehind, .cons h.here _ hbehind]
    · exact ih (h.ahead (goesTo_skip 1 cursor))

theorem syntactic_nameBody (hstart : S start) (fuel : Nat) (cursor : Cursor) :
    SyntacticIn S (nameBody start fuel cursor).errors := by
  induction fuel generalizing cursor with
  | zero => exact .single hstart _
  | succ fuel ih =>
    rw [nameBody]
    split
    · exact .single hstart _
    · split_ifs
      exacts [.single hstart _, ih _, .nil, ih _]

theorem syntactic_number (h : S cursor.position) : SyntacticIn S (number cursor).errors := by
  have hinteger (text : List Char) (next : Cursor) :
      SyntacticIn S (integer cursor.position text next).errors := by
    rw [integer]
    split
    exacts [.nil, .single h _]
  have hfloat (text : List Char) (next : Cursor) :
      SyntacticIn S (float cursor.position text next).errors := by
    rw [float]
    split
    · split_ifs
      exacts [.nil, .single h _]
    · exact .single h _
  simp only [number]
  split
  exacts [hinteger _ _, hfloat _ _]

theorem syntactic_token (c : Char) (h : cursor.StaysIn S) :
    SyntacticIn S (token c cursor).errors := by
  rw [token]
  split_ifs
  · exact .nil
  · exact syntactic_number h.here
  · exact syntactic_stringBody h.here _ (h.ahead (goesTo_skip 1 cursor))
  · exact syntactic_nameBody h.here _ _
  · split
    exacts [.nil, .single h.here _]

end Scan

theorem Cursor.syntactic_scan {S : Position → Prop} {cursor : Cursor} (h : cursor.StaysIn S) :
    SyntacticIn S cursor.scan.2 := by
  induction cursor using scan_induction with
  | ends cursor skipped p htrivia =>
    have hskipped := syntactic_trivia h
    rw [htrivia] at hskipped
    rw [scan_end htrivia]
    exact hskipped
  | token cursor skipped p c rest htrivia ih =>
    have hskipped := syntactic_trivia h
    have hhere := h.ahead (goesTo_trivia cursor)
    rw [htrivia] at hskipped hhere
    have hnext := (goesTo_next p c rest).trans (Scan.goesTo_token p c rest)
    rw [scan_token htrivia]
    exact (hskipped.append (Scan.syntactic_token c hhere)).append (ih (hhere.ahead hnext))

theorem syntactic_tokenize (source : String) : AllSyntactic (tokenize source).2 := by
  have hanywhere : (Cursor.start source).StaysIn fun _ => True := fun _ _ => trivial
  exact fun d hd => (Cursor.syntactic_scan hanywhere d hd).2

end LogRules
