import LogRules.Proofs.Postconditions
import LogRules.Proofs.ReportedErrors
import LogRules.Proofs.Scanning
import LogRules.Proofs.TrackedSources
import LogRules.Source

/-!
Where declarations stand. The places of tokens ascend, and every declaration starts at a token of
its own, so the places of declarations ascend, too.
-/
namespace LogRules

namespace Position

/-- Strictly before another place. -/
def Before (p q : Position) : Prop := p.line < q.line ∨ p.line = q.line ∧ p.column < q.column

theorem Before.trans {p q r : Position} (h : p.Before q) (h' : q.Before r) : p.Before r := by
  unfold Before at *
  omega

theorem Before.ne {p q : Position} (h : p.Before q) : p ≠ q := by
  rintro rfl
  unfold Before at h
  omega

theorem before_advance (p : Position) (c : Char) : p.Before (p.advance c) := by
  rw [advance]
  split <;> simp [Before]

theorem before_advanceAll {p q : Position} (h : p.Before q) (text : List Char) :
    p.Before (q.advanceAll text) := by
  induction text generalizing q with
  | nil => exact h
  | cons c rest ih => exact ih (h.trans (before_advance q c))

end Position

namespace Cursor

theorem GoesTo.before {cursor ahead : Cursor} (h : cursor.GoesTo ahead) {p : Position}
    (hp : p.Before cursor.position) : p.Before ahead.position := by
  obtain ⟨taken, -, hposition⟩ := h
  rw [hposition]
  exact Position.before_advanceAll hp taken

/-- What is scanned from a cursor on stands behind whatever the cursor stands behind. -/
theorem before_scan {p : Position} (cursor : Cursor) (hp : p.Before cursor.position) :
    ∀ t ∈ cursor.scan.1, p.Before t.position := by
  induction cursor using scan_induction with
  | ends cursor skipped q h =>
    have hq := (goesTo_trivia cursor).before hp
    rw [h] at hq
    rw [scan_end h]
    intro t ht
    rw [List.mem_singleton.mp ht]
    exact hq
  | token cursor skipped q c rest h ih =>
    have hq := (goesTo_trivia cursor).before hp
    rw [h] at hq
    rw [scan_token h]
    intro t ht
    obtain ht | ht := List.mem_append.mp ht
    · obtain ⟨l, -, rfl⟩ := Option.map_eq_some_iff.mp (Option.mem_toList.mp ht)
      exact hq
    · exact ih ((Scan.goesTo_token q c rest).before (hq.trans (Position.before_advance q c))) t ht

theorem pairwise_scan (cursor : Cursor) :
    cursor.scan.1.Pairwise fun t t' => t.position.Before t'.position := by
  induction cursor using scan_induction with
  | ends cursor skipped p h =>
    rw [scan_end h]
    exact List.pairwise_singleton _ _
  | token cursor skipped p c rest h ih =>
    rw [scan_token h]
    cases (Scan.token c ⟨p, c :: rest⟩).lexeme with
    | none => exact ih
    | some l =>
      exact List.pairwise_cons.mpr ⟨before_scan _ ((Scan.goesTo_token p c rest).before
        (Position.before_advance p c)), ih⟩

end Cursor

/-- The places of tokens ascend. -/
theorem pairwise_tokenize (source : String) :
    (tokenize source).1.Pairwise fun t t' => t.position.Before t'.position :=
  Cursor.pairwise_scan _

theorem tokenize_ends (source : String) : ∃ inner last,
    (tokenize source).1 = inner ++ [last] ∧ Inner inner ∧ last.lexeme = .eof := by
  obtain ⟨inner, htokens, hinner⟩ := Cursor.scan_ends (Cursor.start source)
  exact ⟨inner, _, htokens, hinner, rfl⟩

theorem standing_of_ends {S : Position → Prop} {inner : List Token} {last : Token}
    (hlast : last.lexeme = .eof) (h : ∀ t ∈ inner ++ [last], S t.position) :
    Standing S (inner ++ [last]) :=
  ⟨h, last, by rw [List.getLast?_append]; rfl, hlast⟩

namespace Grammar

open Parse

variable (registry : Registry)

theorem builds_ruleBody (p : Position) :
    AlwaysBuilds (ruleBody registry p) fun r => r.position = p :=
  builds_after _ fun _ => builds_after _ fun _ => builds_after _ fun _ => builds_after _ fun _ =>
    builds_after _ fun _ => builds_after _ fun _ => builds_after _ fun _ => builds_pure rfl

theorem builds_pipelineBody (p : Position) :
    AlwaysBuilds (pipelineBody p) fun q => q.position = p := by
  have hrest (name : String) (found : List Stage) : AlwaysBuilds (do
      reportAll (stageErrors name found)
      return ⟨name, found, p⟩ : Parse Pipeline) fun q => q.position = p :=
    builds_after _ fun _ => builds_pure rfl
  refine builds_after _ fun name => builds_after _ fun _ => builds_after _ fun found =>
    builds_after _ fun _ => ?_
  split
  · exact builds_after _ fun _ => hrest name _
  · exact hrest name _

/-- A declaration starts at the first token. -/
theorem position_declaration {t : Token} {rest : List Token} (ht : t.lexeme ≠ .eof) :
    ∀ d ∈ (declaration registry (t :: rest)).result, d.position = t.position := by
  rw [declaration_cons ht]
  split_ifs
  · intro d hd
    rw [bind_pure_eq] at hd
    obtain ⟨r, hr, rfl⟩ := Option.map_eq_some_iff.mp hd
    exact builds_ruleBody registry t.position rest trivial r hr
  · intro d hd
    rw [bind_pure_eq] at hd
    obtain ⟨p, hp, rfl⟩ := Option.map_eq_some_iff.mp hd
    exact builds_pipelineBody t.position rest trivial p hp
  · rw [noDeclaration_cons ht]
    intro d hd
    cases hd

theorem skipToDeclaration_left {last : Token} (hlast : last.lexeme = .eof) (tokens : List Token) :
    ∃ left, left <:+ tokens ∧ skipToDeclaration (tokens ++ [last]) = left ++ [last] := by
  obtain ⟨left, hleft, hskip, -⟩ := skips_toDeclaration.left id tokens hlast
  exact ⟨left, hleft, hskip⟩

/-- What is left behind the first declaration. One that is built has consumed a token. -/
theorem declaration_left {last t : Token} (hlast : last.lexeme = .eof) {rest : List Token}
    (hinner : Inner (t :: rest)) : ∃ errors left result,
      attempt (declaration registry) (t :: rest ++ [last]) =
          ⟨errors, left ++ [last], some result⟩ ∧
        left <:+ t :: rest ∧ ∀ d ∈ result, left <:+ rest ∧ d.position = t.position := by
  have htracks : Tracks id (Declaration.relocate id) (fun _ => True) True
    (declaration registry) (declaration registry) (t :: rest) := tracks_declaration (by simp)
  obtain ⟨errors, left, result, hreply, hleft, -, hfewer, -⟩ :=
    htracks last [last] hinner hlast (by simp)
  refine ⟨errors, left, result, by rw [attempt, hreply], hleft, fun d hd => ⟨?_, ?_⟩⟩
  · obtain heq | hsuffix := List.suffix_cons_iff.mp hleft
    · have hlength := hfewer (Option.isSome_of_mem hd) trivial
      rw [heq] at hlength
      exact absurd hlength (Nat.lt_irrefl _)
    · exact hsuffix
  · have hresult : d ∈ (declaration registry (t :: (rest ++ [last]))).result := by
      rw [← List.cons_append, hreply]
      exact hd
    exact position_declaration registry (hinner t List.mem_cons_self) d hresult

theorem pairwise_declarations {last : Token} (hlast : last.lexeme = .eof) (fuel : Nat)
    {tokens : List Token} (hinner : Inner tokens)
    (h : (tokens ++ [last]).Pairwise fun t t' => t.position.Before t'.position) :
    ∀ found ∈ (declarations registry fuel (tokens ++ [last])).result,
      found.Pairwise fun d d' => d.position.Before d'.position := by
  induction fuel generalizing tokens with
  | zero =>
    intro found hfound
    obtain rfl := Option.some.inj hfound
    exact .nil
  | succ fuel ih =>
    cases tokens with
    | nil =>
      rw [List.nil_append, declarations_of_eof registry (show tokenAt 0 [last] = .eof from hlast)]
      intro found hfound
      obtain rfl := Option.some.inj hfound
      exact .nil
    | cons t rest =>
      have ht : t.lexeme ≠ .eof := hinner t (by simp)
      obtain ⟨errors, left, result, hattempt, hleft, hbuilt⟩ :=
        declaration_left registry hlast hinner
      have hlater {left : List Token} (hleft : left <:+ t :: rest) :
          (left ++ [last]).Pairwise fun t t' => t.position.Before t'.position :=
        h.sublist (hleft.sublist.append_right [last])
      rw [declarations_succ registry (show tokenAt 0 (t :: rest ++ [last]) ≠ .eof from ht),
        result_bind (by rw [hattempt]), hattempt]
      cases result with
      | none =>
        obtain ⟨left', hleft', hskip⟩ := skipToDeclaration_left hlast left
        rw [result_bind (show (skip skipToDeclaration _).result = some () from rfl)]
        simp only [skip, hskip]
        exact ih (hinner.suffix (hleft'.trans hleft)) (hlater (hleft'.trans hleft))
      | some d =>
        simp only [bind_pure_eq]
        intro found hfound
        obtain ⟨more, hmore, rfl⟩ := Option.map_eq_some_iff.mp hfound
        obtain ⟨hshort, hd⟩ := hbuilt d rfl
        refine List.pairwise_cons.mpr ⟨fun d' hd' => ?_,
          ih (hinner.suffix hleft) (hlater hleft) more hmore⟩
        have hfirst := (List.pairwise_cons.mp h).1
        have hstanding : Standing (t.position.Before ·) (left ++ [last]) :=
          standing_of_ends hlast fun t' ht' =>
            hfirst t' ((hshort.sublist.append_right [last]).mem ht')
        rw [hd]
        exact (reports_declarations registry fuel _ hstanding).2.2 more hmore d' hd'

end Grammar

/-- The places of the declarations of a source ascend. -/
theorem pairwise_parseSource (source : String) (registry : Registry) :
    (parseSource source registry).declarations.Pairwise
      fun d d' => d.position.Before d'.position := by
  obtain ⟨inner, last, htokens, hinner, hlast⟩ := tokenize_ends source
  have hascend := pairwise_tokenize source
  obtain ⟨found, hfound⟩ := Grammar.declarations_total registry (tokenize source).1.length
    (tokenize source).1
  have hdeclarations : (parseSource source registry).declarations = found := by
    simp only [parseSource, Parse.run, hfound, Option.getD_some]
  rw [hdeclarations]
  rw [htokens] at hascend hfound
  exact Grammar.pairwise_declarations registry hlast _ hinner hascend found hfound

end LogRules
