import Mathlib
import VerilogScaffold.Proofs.BlankLines
import VerilogScaffold.Proofs.Name

/-!
# Blocks without gaps

A plain name holds no blank, so what is generated for plain names, and for values and ranges without
gaps, is laid out by the program alone. Such a block is empty or `Solid`: it has no gap, and a gap
beside it is the template's own.
-/

namespace VerilogScaffold

open Text Segment

/-! ## Plain names -/

theorem isBlank_of_isWordChar {c : Char} (h : isWordChar c = true) : isBlank c = false := by
  have hrange : 48 ≤ c.toNat ∧ c.toNat ≤ 122 ∨ c = '$' := by
    simp only [isWordChar, Char.isAlphanum, Char.isAlpha, Char.isUpper, Char.isLower, Char.isDigit,
      Bool.or_eq_true, Bool.and_eq_true, decide_eq_true_eq, beq_iff_eq, UInt32.le_iff_toNat_le,
      Char.toNat_val] at h
    rcases h with (((h | h) | h) | rfl) | rfl
    · exact .inl (by simp at h; omega)
    · exact .inl (by simp at h; omega)
    · exact .inl (by simp at h; omega)
    · exact .inl (by decide)
    · exact .inr rfl
  rcases hrange with hrange | rfl
  · simp only [isBlank, blankRanges, List.any_cons, List.any_nil, Bool.or_false,
      Bool.or_eq_false_iff, Bool.and_eq_false_iff, decide_eq_false_iff_not]
    omega
  · rfl

theorem isWordChar_of_isWordStart {c : Char} (h : isWordStart c = true) : isWordChar c = true := by
  simp only [isWordStart, Bool.or_eq_true] at h
  rcases h with h | h <;> simp [isWordChar, Char.isAlphanum, h]

/-- A name that is not escaped. -/
structure IsPlainName (name : String) : Prop where
  isName : IsName name.toList
  head?_ne : name.toList.head? ≠ some '\\'

namespace IsPlainName

variable {name : String}

theorem isWordChar (h : IsPlainName name) : ∀ c ∈ name.toList, isWordChar c = true := by
  obtain ⟨hname, hplain⟩ := h
  generalize name.toList = cs at hname hplain
  cases hname with
  | plain start rest kind => exact List.forall_mem_cons.2 ⟨isWordChar_of_isWordStart start, rest⟩
  | escaped => exact absurd rfl hplain

theorem not_blank (h : IsPlainName name) : ∀ c ∈ name.toList, isBlank c = false :=
  fun c hc => isBlank_of_isWordChar (h.isWordChar c hc)

theorem ne_nil (h : IsPlainName name) : name.toList ≠ [] := by
  intro hnil
  have hname := h.isName
  rw [hnil] at hname
  cases hname

/-- A word with an underscore is no keyword. -/
theorem of_mem_underscore {c : Char} {cs : List Char} (hname : name.toList = c :: cs)
    (hc : isWordStart c = true) (hcs : ∀ d ∈ cs, Segment.isWordChar d = true)
    (hmem : '_' ∈ name.toList) :
    IsPlainName name := by
  have hkeyword : ∀ k ∈ Keyword.all, '_' ∉ k.spelling.toList := by decide
  have hkind : wordKind (c :: cs) = .identifier := by
    rw [wordKind]
    split
    · rename_i k hk
      refine absurd hmem ?_
      rw [hname, ← String.toList_ofList (l := c :: cs), ← Keyword.ofSpelling?_eq_some_iff.1 hk]
      exact hkeyword k k.mem_all
    · rfl
  have hne : c ≠ '\\' := by
    rintro rfl
    cases hc
  exact ⟨hname ▸ .plain hc hcs hkind, by simpa [hname] using hne⟩

/-- A plain name stays one behind a start with an underscore. -/
theorem underscored (h : IsPlainName name) {start : String} {c : Char} {cs : List Char}
    (hstart : start.toList = c :: cs) (hc : isWordStart c = true)
    (hcs : ∀ d ∈ cs, Segment.isWordChar d = true) (hmem : '_' ∈ start.toList) :
    IsPlainName (start ++ name) := by
  have hname : (start ++ name).toList = c :: (cs ++ name.toList) := by
    rw [String.toList_append, hstart, List.cons_append]
  refine of_mem_underscore hname hc (List.forall_mem_append.2 ⟨hcs, h.isWordChar⟩) ?_
  rw [String.toList_append]
  exact List.mem_append_left _ hmem

theorem solid (h : IsPlainName name) : Solid name.toList := solid_of_not_blank h.ne_nil h.not_blank

theorem terminatedName_eq (h : IsPlainName name) : terminatedName name = name :=
  (terminatedName_eq_or name).resolve_right fun hescaped => h.head?_ne hescaped.1

theorem solid_padRight (h : IsPlainName name) (width : Nat) :
    Solid (padRight width (terminatedName name)).toList := by
  rw [h.terminatedName_eq, toList_padRight]
  exact h.solid.append (newlinesAfter?_spaces 0 _)

end IsPlainName

/-- A signature without escaped names. -/
structure Signature.Plain (s : Signature) : Prop where
  name : IsPlainName s.name
  parameter : ∀ p ∈ s.parameters, IsPlainName p.name
  port : ∀ p ∈ s.allPorts, IsPlainName p.name

/-! ## Blocks -/

/-- A text without gaps in a column has none. -/
theorem Text.GapFree.exists_padRight {text : String} (h : GapFree text.toList) (width : Nat) :
    ∃ m, newlinesAfter? 0 (padRight width text).toList = some m := by
  obtain ⟨m, hm⟩ := h.exists_newlinesAfter?
  refine ⟨m, ?_⟩
  rw [toList_padRight, newlinesAfter?_append, hm, Option.bind_some, newlinesAfter?_spaces]

namespace Block

variable {ps : List Parameter} {ports : List Port}

/-- Lines that are solid make a block that is empty or solid. -/
theorem eq_nil_or_solid_joinWith {separator : String} {m : Nat}
    (hseparator : newlinesAfter? 0 separator.toList = some m) {lines : List String}
    (h : ∀ t ∈ lines, Solid t.toList) :
    (joinWith separator lines).toList = [] ∨ Solid (joinWith separator lines).toList := by
  by_cases hnil : lines = []
  · exact .inl (by rw [hnil]; rfl)
  · exact .inr (Solid.joinWith hseparator hnil h)

theorem solid_parameterDeclaration (hnames : ∀ p ∈ ps, IsPlainName p.name)
    (hvalues : ∀ p ∈ ps, GapFree p.value.toList) :
    (parameterDeclaration ps).toList = [] ∨ Solid (parameterDeclaration ps).toList := by
  refine eq_nil_or_solid_joinWith (m := 1) rfl fun t ht => ?_
  obtain ⟨p, hp, rfl⟩ := List.mem_map.1 ht
  obtain ⟨m, hvalue⟩ := (hvalues p hp).exists_padRight (widest (ps.map Parameter.value))
  have hname := (hnames p hp).solid_padRight (widest (ps.map Parameter.writtenName))
  have hkeyword : Solid "parameter ".toList := fun _ => rfl
  have hequals : Solid " = ".toList := fun _ => rfl
  have hsemicolon : Solid ";".toList := fun _ => rfl
  simp only [String.toList_append, List.append_assoc]
  exact hkeyword.append_solid (hname.append_solid (hequals.append (hsemicolon.behind hvalue)))

theorem solid_portDeclaration (d : Direction) (hnames : ∀ p ∈ ports, IsPlainName p.name)
    (hranges : ∀ p ∈ ports, GapFree p.range.toList) :
    (portDeclaration d ports).toList = [] ∨ Solid (portDeclaration d ports).toList := by
  refine eq_nil_or_solid_joinWith (m := 1) rfl fun t ht => ?_
  obtain ⟨p, hp, rfl⟩ := List.mem_map.1 ht
  obtain ⟨m, hrange⟩ := (hranges p hp).exists_padRight (widest (ports.map Port.range) + 1)
  have hname := (hnames p hp).solid_padRight (widest (ports.map Port.writtenName))
  have hkeyword : Solid (padRight 5 (signalKeyword d)).toList := by
    cases d <;> exact fun _ => rfl
  have hend : newlinesAfter? 0 ((signalInitializer d).toList ++ ";".toList) = some 0 := by
    cases d <;> rfl
  simp only [String.toList_append, List.append_assoc]
  have hrest : Solid ((padRight (widest (ports.map Port.writtenName)) p.writtenName).toList ++
      ((signalInitializer d).toList ++ ";".toList)) := hname.append hend
  exact hkeyword.append (hrest.behind hrange)

theorem solid_connection {name : String} (h : IsPlainName name) (width : Nat) :
    Solid (connection width (terminatedName name)).toList := by
  have hpoint : Solid "    .".toList := fun _ => rfl
  have hopening : Solid "(".toList := fun _ => rfl
  have hclosing : Solid ")".toList := fun _ => rfl
  have hname := h.solid_padRight width
  simp only [connection, String.toList_append, List.append_assoc]
  exact hpoint.append_solid
    (hname.append_solid (hopening.append_solid (hname.append_solid hclosing)))

theorem solid_parameterDefinition (hnames : ∀ p ∈ ps, IsPlainName p.name) :
    (parameterDefinition ps).toList = [] ∨ Solid (parameterDefinition ps).toList := by
  by_cases hnil : ps = []
  · exact .inl (by rw [hnil]; rfl)
  · have hlines : Solid (joinWith ",\n" (parameterConnections ps)).toList := by
      refine Solid.joinWith (m := 1) rfl (by simpa [parameterConnections] using hnil) fun t ht => ?_
      obtain ⟨p, hp, rfl⟩ := exists_of_mem_parameterConnections ht
      exact solid_connection (hnames p hp) _
    have hopening : newlinesAfter? 0 "(\n".toList = some 1 := rfl
    have hsharp : Solid "#".toList := fun _ => rfl
    have hclosing : newlinesAfter? 0 "\n)".toList = some 0 := rfl
    have hcut : (parameterDefinition ps).toList = "#".toList ++ ("(\n".toList ++
        ((joinWith ",\n" (parameterConnections ps)).toList ++ "\n)".toList)) := by
      rw [parameterDefinition, if_neg (by simpa using hnil), String.toList_append,
        String.toList_append, List.append_assoc]
      rfl
    have hrest : Solid ((joinWith ",\n" (parameterConnections ps)).toList ++ "\n)".toList) :=
      hlines.append hclosing
    exact .inr (hcut ▸ hsharp.append (hrest.behind hopening))

theorem solid_portConnection {s : Signature} (hnames : ∀ p ∈ s.allPorts, IsPlainName p.name) :
    (portConnection s).toList = [] ∨ Solid (portConnection s).toList := by
  refine eq_nil_or_solid_joinWith (m := 2) rfl fun t ht => ?_
  obtain ⟨group, hgroup, rfl⟩ := List.mem_map.1 ht
  obtain ⟨hmem, hne⟩ := List.mem_filter.1 hgroup
  refine Solid.joinWith (m := 1) rfl (by simpa using hne) fun t ht => ?_
  obtain ⟨p, hp, rfl⟩ := exists_of_mem_portConnections hmem ht
  exact solid_connection (hnames p hp) _

end Block

end VerilogScaffold
