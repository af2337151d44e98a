import VerilogScaffold.Proofs.Composition
import VerilogScaffold.Proofs.Connection

/-!
# Port declarations and connections declare nothing

A testbench declares a signal for each port of the module that it drives, and connects the ports by
name. To a reader of signatures neither is a declaration: a signal is a variable or a net, not a
port, and a list of connections is a list of names. Both blocks can therefore stand in front of the
rest of a module.
-/

namespace VerilogScaffold

open Text Segment

/-! ## Ranges -/

/-- Whether a text holds no keyword that starts a declaration of parameters or ports. -/
def DeclaresNothing (cs : List Char) : Prop :=
  ∀ t ∈ lexemes cs, t.kind ≠ .keyword .parameter ∧ ∀ d, t.kind ≠ .keyword (.direction d)

theorem Excerpt.isInert {v : List Char} {run : List (Lexeme Site)} (h : Excerpt v run)
    (hv : DeclaresNothing v) (hcloser : Outline.NoCloser run) {t : Lexeme Site} (ht : t ∈ run) :
    t.kind.isInert = true := by
  have hmem : t ∈ lexemes v := by
    refine (Stripped.tokens_sublist (lexemes v)).subset ?_
    rw [← Stripped.read, h.read]
    exact ht
  obtain ⟨hparameter, hdirection⟩ := hv t hmem
  exact TokenKind.isInert_iff.2 ⟨hparameter, hdirection, hcloser t ht, h.toKeeps.not_open ht⟩

namespace Completes

variable {F : List Char} {ps : List Parameter}

/-- A range and spaces in front of what is neither a gap, a tick nor a point. -/
theorem range {cs : List Char} {p : Port} (hp : p.Legible cs)
    (hrange : DeclaresNothing p.range.toList)
    {k : Nat} (hk : 0 < k) {c : Char} (htick : c ≠ '\'') (hgap : isGap c = false) (hpoint : c ≠ '.')
    (h : Completes (c :: F) ps) :
    Completes (p.range.toList ++ (List.replicate k ' ' ++ c :: F)) ps := by
  have hspaces : Completes (List.replicate k ' ' ++ c :: F) ps :=
    h.blanks fun c => isAsciiBlank_of_mem_replicate
  rcases hp.range with hempty | ⟨run, hrun, hcloser, t, ht, hclosing⟩
  · rw [hempty]
    exact hspaces
  · obtain ⟨segments, s, ts, t', hsplit, rfl, hkind, -⟩ := hrun.exists_last
    rw [List.getLast?_concat] at ht
    obtain rfl := Option.some.inj ht
    have hlast : ∀ u ∈ (split p.range.toList).getLast?,
        u.Tolerates [] (List.replicate k ' ' ++ c :: F) := by
      intro u hu
      rw [hsplit, List.getLast?_concat] at hu
      obtain rfl := Option.some.inj hu
      refine tolerates_of_isSettled ?_ _ _
      rw [hkind, hclosing]
      rfl
    refine hspaces.append (fun u hu => ?_) fun hF =>
      hF.excerpt hrun (mayReplace_nil_spaces (.inl hk) htick hgap hpoint) hlast
    obtain ⟨v, hv, rfl⟩ := List.mem_map.1 hu
    exact (hrun.isInert hrange hcloser hv : v.kind.isInert = true)

/-- The keyword of a signal's declaration in its column. -/
theorem signalKeyword (d : Direction) (h : Completes F ps) :
    Completes ((padRight 5 (Block.signalKeyword d)).toList ++ F) ps := by
  have hreg : Completes ('r' :: "eg".toList ++ ' ' :: ' ' :: F) ps :=
    ((h.blank rfl).blank rfl).lexeme rfl rfl
  have hwire : Completes ('w' :: "ire".toList ++ ' ' :: F) ps := (h.blank rfl).lexeme rfl rfl
  cases d
  · exact hreg
  · exact hwire
  · exact hwire

/-- What follows the name in a signal's declaration. -/
theorem signalInitializer (d : Direction) (h : Completes F ps) :
    Completes ((Block.signalInitializer d ++ ";").toList ++ F) ps := by
  have hsemicolon : Completes (';' :: F) ps := h.single rfl rfl
  have hzero : Completes (' ' :: '=' :: ' ' :: '0' :: ';' :: F) ps :=
    (((hsemicolon.single rfl rfl).blank rfl).single rfl rfl).blank rfl
  cases d
  · exact hzero
  · exact hsemicolon
  · exact hsemicolon

/-- The declarations of the signals for the ports of a direction. -/
theorem portDeclaration {cs : List Char} (d : Direction) {ports : List Port}
    (hports : ∀ p ∈ ports, p.Legible cs) (hnames : ∀ p ∈ ports, p.name.toList.head? ≠ some '\\')
    (hranges : ∀ p ∈ ports, DeclaresNothing p.range.toList) (h : Completes F ps) :
    Completes ((Block.portDeclaration d ports).toList ++ F) ps := by
  have hline : ∀ p ∈ ports, ∀ {F ps}, Completes F ps →
      Completes ((padRight 5 (Block.signalKeyword d) ++
        padRight (widest (ports.map Port.range) + 1) p.range ++
        padRight (widest (ports.map Port.writtenName)) p.writtenName ++ Block.signalInitializer d ++
        ";").toList ++ F) ([] ++ ps) := by
    intro p hp F ps hF
    obtain ⟨k, hname, -⟩ := exists_toList_padRight_terminatedName
      (widest (ports.map Port.writtenName)) p.name
    have hcut : (padRight 5 (Block.signalKeyword d) ++
        padRight (widest (ports.map Port.range) + 1) p.range ++
        padRight (widest (ports.map Port.writtenName)) p.writtenName ++ Block.signalInitializer d ++
        ";").toList ++ F = (padRight 5 (Block.signalKeyword d)).toList ++ (p.range.toList ++
          (List.replicate (widest (ports.map Port.range) + 1 - p.range.length) ' ' ++
            (p.name.toList ++
            (List.replicate k ' ' ++ ((Block.signalInitializer d ++ ";").toList ++ F))))) := by
      simp only [String.toList_append, Port.writtenName, hname, toList_padRight, List.append_assoc]
    have hend : startsWith isWordChar ((Block.signalInitializer d ++ ";").toList ++ F) = false := by
      cases d <;> rfl
    have hwidth : 0 < widest (ports.map Port.range) + 1 - p.range.length := by
      have := length_le_widest (List.mem_map_of_mem (f := Port.range) hp)
      omega
    have hplain := hnames p hp
    have htail := (hF.signalInitializer d).name (hports p hp).name.isName (k := k)
      (fun hhead => absurd hhead hplain) hend
    rw [hcut]
    refine Completes.signalKeyword d ?_
    have hisName := (hports p hp).name.isName
    generalize p.name.toList = name at hisName hplain htail
    cases hisName with
    | @plain c cs hstart hrest hkind =>
      have hne : ∀ e, isWordStart e = false → c ≠ e := by
        rintro e he rfl
        rw [hstart] at he
        cases he
      have hgap : isGap c = false := by
        simp [isGap, hne ' ' rfl, hne '\t' rfl]
      exact htail.range (hports p hp) (hranges p hp) hwidth (hne '\'' rfl) hgap (hne '.' rfl)
    | escaped => exact absurd rfl hplain
  have := lines hline h
  rwa [List.flatMap_eq_nil_iff.2 fun _ _ => rfl] at this

/-! ## Connections -/

/-- Words in front that declare nothing. -/
theorem spells {cs : List Char} {ws : List (TokenKind × String)}
    (hspells : ∀ {later}, Reads F later → Spells later (cs ++ F) ws)
    (hws : ∀ w ∈ ws, w.1.isInert = true) (h : Completes F ps) : Completes (cs ++ F) ps := by
  obtain ⟨us, hread, rfl⟩ := hspells h.reads
  exact h.prepend hread fun t ht => hws _ (List.mem_map_of_mem ht)

end Completes

theorem isInert_of_mem_connectionWords {name : String} {w : TokenKind × String}
    (hw : w ∈ connectionWords name) : w.1.isInert = true := by
  simp only [connectionWords, List.mem_cons, List.not_mem_nil, or_false] at hw
  rcases hw with rfl | rfl | rfl | rfl | rfl
  · rfl
  · exact isInert_nameKind _
  · rfl
  · exact isInert_nameKind _
  · rfl

theorem isInert_of_mem_commaSeparated {names : List String} {w : TokenKind × String}
    (hw : w ∈ commaSeparated (names.map connectionWords)) : w.1.isInert = true := by
  induction names with
  | nil => cases hw
  | cons n names ih =>
    by_cases hnil : names = []
    · subst hnil
      rw [List.map_singleton, commaSeparated, List.intercalate_singleton] at hw
      exact isInert_of_mem_connectionWords hw
    · rw [List.map_cons, commaSeparated_cons (by simpa using hnil)] at hw
      rcases List.mem_append.1 hw with hw | hw
      · exact isInert_of_mem_connectionWords hw
      · rcases List.mem_cons.1 hw with rfl | hw
        · rfl
        · exact ih hw

/-- A column of plain names needs no padding. -/
theorem Block.separable_of_head?_ne {names : List String}
    (h : ∀ n ∈ names, n.toList.head? ≠ some '\\') : Separable names :=
  fun n hn htaken => absurd htaken.1 (h n hn)

namespace Completes

variable {F : List Char} {ps : List Parameter} {cs : List Char}

/-- The list of parameter overrides. -/
theorem parameterDefinition {qs : List Parameter} (hnamed : ∀ p ∈ qs, NamedIn cs p.name)
    (hplain : ∀ p ∈ qs, p.name.toList.head? ≠ some '\\') (h : Completes F ps) :
    Completes ((Block.parameterDefinition qs).toList ++ F) ps := by
  have hseparable : Block.Separable (qs.map Parameter.name) :=
    Block.separable_of_head?_ne (by simpa using hplain)
  refine h.spells (fun hF => Block.spells_parameterDefinition hF hnamed hseparable) fun w hw => ?_
  rw [Block.definitionWords] at hw
  split at hw
  · cases hw
  · rcases List.mem_cons.1 hw with rfl | hw
    · rfl
    · rcases List.mem_cons.1 hw with rfl | hw
      · rfl
      · rcases List.mem_append.1 hw with hw | hw
        · exact isInert_of_mem_commaSeparated hw
        · obtain rfl := List.mem_singleton.1 hw
          rfl

/-- The list of port connections. -/
theorem portConnection {s : Signature} (hnamed : s.Named cs)
    (hplain : ∀ p ∈ s.allPorts, p.name.toList.head? ≠ some '\\') (h : Completes F ps) :
    Completes ((Block.portConnection s).toList ++ F) ps := by
  have hseparable : Block.Separable (s.allPorts.map Port.name) :=
    Block.separable_of_head?_ne (by simpa using hplain)
  exact h.spells (fun hF => Block.spells_portConnection hF hnamed hseparable) fun w hw =>
    isInert_of_mem_commaSeparated hw

end Completes

end VerilogScaffold
