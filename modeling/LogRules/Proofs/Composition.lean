import LogRules.Proofs.CleanSources
import LogRules.Proofs.MovedScanning
import LogRules.Proofs.Places

/-!
Two sources, one below the other. Behind a source without errors another one means what it means
alone, some lines further down.
-/
namespace LogRules

namespace Position

/-- Some lines further down. -/
def down (lines : Nat) (p : Position) : Position := ⟨p.line + lines, p.column⟩

variable (lines : Nat)

theorem steady_down : Steady (down lines) := by
  intro p c
  rw [advance, advance]
  split
  · exact congrArg (Position.mk · 1) (Nat.add_right_comm p.line 1 lines)
  · rfl

theorem down_le_down (p q : Position) : down lines p ≤ down lines q ↔ p ≤ q := by
  change p.line + lines < q.line + lines ∨
    p.line + lines = q.line + lines ∧ p.column ≤ q.column ↔ le p q
  rw [Nat.add_lt_add_iff_right, Nat.add_right_cancel_iff, le]

theorem down_injective : Function.Injective (down lines) := by
  intro p q h
  obtain ⟨hline, hcolumn⟩ := Position.mk.inj h
  cases p
  cases q
  exact congrArg₂ Position.mk (Nat.add_right_cancel hline) hcolumn

end Position

theorem Diagnostic.relocate_injective {move : Position → Position}
    (hmove : Function.Injective move) : Function.Injective (relocate move) := by
  intro d e h
  obtain ⟨hposition, hproblem⟩ := Diagnostic.mk.inj h
  cases d
  cases e
  exact congrArg₂ Diagnostic.mk (hmove hposition) hproblem

theorem Diagnostic.arrange_down (lines : Nat) (errors : List Diagnostic) :
    arrange (errors.map (relocate (.down lines))) =
      (arrange errors).map (relocate (.down lines)) := by
  have hkey (d e : Diagnostic) : (d.relocate (.down lines)).position ≤
      (e.relocate (.down lines)).position ↔ d.position ≤ e.position :=
    Position.down_le_down lines d.position e.position
  have hinjective := relocate_injective (Position.down_injective lines)
  rw [arrange, sortBy_map hkey, dropRepeats_map fun _ _ h => hinjective h, arrange]

/-- The number of lines that a source takes together with the end of its last line. -/
def lineCount (source : String) : Nat := source.toList.count '\n' + 1

section Tokens

open Cursor

variable {source : String} (source' : String)

theorem scan_newline (p : Position) (rest : List Char) :
    scan ⟨p, '\n' :: rest⟩ = scan ⟨p.advance '\n', rest⟩ := by
  have hblank : trivia ⟨p, '\n' :: rest⟩ = ([] ++ (trivia ⟨p.advance '\n', rest⟩).1,
      (trivia ⟨p.advance '\n', rest⟩).2) :=
    trivia_blank p (by decide) rest
  exact scan_of_trivia hblank

theorem advance_lastPosition (source : String) :
    (start source).lastPosition.advance '\n' = Position.start.down (lineCount source) := by
  have hlast : (start source).lastPosition = .behind source.toList :=
    Position.advanceAll_start source.toList
  rw [hlast, Position.advance, if_pos rfl]
  exact congrArg (Position.mk · 1) (Nat.add_assoc 1 _ 1)

theorem scan_down (lines : Nat) : scan ⟨Position.start.down lines, source'.toList⟩ =
    ((tokenize source').1.map (Token.relocate (.down lines)),
      (tokenize source').2.map (Diagnostic.relocate (.down lines))) :=
  scan_relocate (Position.steady_down lines) (start source')

/-- Behind a source without errors, the tokens of another one follow, and its errors. -/
theorem tokenize_append {inner : List Token} {last : Token}
    (hinner : (tokenize source).1 = inner ++ [last]) (hclean : (tokenize source).2 = []) :
    tokenize (source ++ "\n" ++ source') =
      (inner ++ (tokenize source').1.map (Token.relocate (.down (lineCount source))),
        (tokenize source').2.map (Diagnostic.relocate (.down (lineCount source)))) := by
  have hstart : start (source ++ "\n" ++ source') =
      (start source).shift id ('\n' :: source'.toList) := by
    simp [start, shift]
  have hends : EndsLine ('\n' :: source'.toList) := by simp [EndsLine]
  rw [tokenize_eq, hstart, scan_shift (fun _ _ => rfl) hends _ hinner (.inr hclean), id,
    scan_newline, advance_lastPosition, scan_down, List.map_id'' Token.relocate_id]
  rw [tokenize_eq] at hclean
  rw [hclean]
  rfl

end Tokens

namespace Grammar

/-- The declarations of moved tokens, however much more fuel there is. -/
theorem declarations_relocate (registry : Registry) (move : Position → Position)
    {inner : List Token} {last : Token} {fuel : Nat} (hinner : Inner inner)
    (hlast : last.lexeme = .eof) (hfuel : (inner ++ [last]).length ≤ fuel) :
    ∃ left, declarations registry fuel ((inner ++ [last]).map (Token.relocate move)) =
      ⟨(declarations registry (inner ++ [last]).length (inner ++ [last])).errors.map
          (Diagnostic.relocate move), left,
        (declarations registry (inner ++ [last]).length (inner ++ [last])).result.map
          (List.map (Declaration.relocate move))⟩ := by
  rw [List.length_append, List.length_singleton] at hfuel ⊢
  obtain ⟨errors, left, result, halone, -, -, -, hmoved⟩ :=
    tracks_declarations (Nat.lt_succ_self inner.length) hfuel last [last.relocate move] hinner
      hlast (by simp)
  rw [halone, List.map_append]
  exact ⟨_, hmoved (.inl rfl)⟩

end Grammar

/-- A source without errors is parsed as if nothing followed it, and the source on the lines below
it as if nothing stood before it. -/
theorem parseSource_append {source : String} {registry : Registry}
    (hclean : (parseSource source registry).isClean) (source' : String) :
    parseSource (source ++ "\n" ++ source') registry =
      ⟨(parseSource source registry).declarations ++
          (parseSource source' registry).declarations.map
            (Declaration.relocate (.down (lineCount source))),
        (parseSource source' registry).errors.map
          (Diagnostic.relocate (.down (lineCount source)))⟩ := by
  obtain ⟨inner, hinner, hends⟩ := (Cursor.start source).scan_ends
  obtain ⟨inner', hinner', hends'⟩ := (Cursor.start source').scan_ends
  rw [← Cursor.tokenize_eq] at hinner hinner'
  obtain ⟨hscan, hparse⟩ := errors_of_isClean hclean
  have hbelow : (tokenize source').1.map (Token.relocate (.down (lineCount source))) ≠ [] := by
    simp [hinner']
  rw [hinner] at hparse
  obtain ⟨found, fuel, hfuel, hfound, happend⟩ :=
    Grammar.declarations_append hends rfl hbelow (by simp) (List.length_append ..).ge hparse
  rw [List.length_map] at hfuel
  obtain ⟨left, hmoved⟩ := Grammar.declarations_relocate registry
    (.down (lineCount source)) hends' rfl (hinner' ▸ hfuel)
  rw [← hinner'] at hmoved
  rw [← hinner] at hfound
  obtain ⟨more, hmore⟩ :=
    Grammar.declarations_total registry (tokenize source').1.length (tokenize source').1
  simp only [parseSource, Parse.run, tokenize_append source' hinner hscan, happend, hmoved, hfound,
    hmore, Option.map_some, Option.getD_some, ← List.map_append, Diagnostic.arrange_down]

def upperSource : String := "rule \"upper\" when true\nthen\n  let x = 1;\nend"

def lowerSource : String := "rule \"lower\" when ) then let y = x; end\n/* unfinished"

/-- The variable of the upper rule is not known in the lower one. -/
theorem parseSource_append_brokenLower :
    (parseSource (upperSource ++ "\n" ++ lowerSource) (.ofList [])).rules.map (·.name) =
        ["upper", "lower"] ∧
      (parseSource (upperSource ++ "\n" ++ lowerSource) (.ofList [])).errors =
        [.syntactic ⟨5, 19⟩ "expected expression, found ')'", ⟨⟨5, 34⟩, .undeclaredVariable "x"⟩,
          .syntactic ⟨6, 1⟩ "unterminated block comment"] := by
  have hclean : (parseSource upperSource (.ofList [])).isClean := by decide +kernel
  rw [parseSource_append hclean lowerSource]
  decide +kernel

end LogRules
