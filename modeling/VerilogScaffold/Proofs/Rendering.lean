import Mathlib.Data.List.Infix
import VerilogScaffold.Proofs.ClosedGaps
import VerilogScaffold.Proofs.Name
import VerilogScaffold.Proofs.Substitution
import VerilogScaffold.Template.Render

/-!
# Rendered text is stable

Rendered text has no gap, so if it holds no placeholder either, it is rendered as itself, for
whatever module (`Template.render_eq_self_iff`). The bundled templates leave no placeholder behind,
as long as the strings of the signature bring none along (`Template.unopened_render_bundled`).

## Shape of the argument

A placeholder opens with a dollar sign and a brace. No string of the signature holds the two
together, but they may still meet where one text ends and the next begins.

* In a block, every string stands between texts that neither start with the brace nor end in the
  dollar sign (`Text.Sealed`), so blocks open nothing (`Placeholder.unopened_expand`).
* The worst that a placeholder can stand for starts with the brace and ends in the dollar sign. A
  template in which even this opens nothing is filled in safely, whatever its placeholders stand for
  (`Placeholder.unopened_and_head?_scan`).
* Closing a gap leaves blanks where blanks were (`Text.Collapses.unopened`).
-/

namespace VerilogScaffold

open Text

namespace Text

variable {c : Char} {a b cs out x : List Char}

/-! ## Texts that open no placeholder -/

/-- Whether no placeholder opens in a text. -/
def Unopened (cs : List Char) : Prop := ¬['$', '\x7b'] <:+: cs

instance (cs : List Char) : Decidable (Unopened cs) := inferInstanceAs (Decidable (¬_))

theorem unopened_nil : Unopened [] := by decide

theorem unopened_cons : Unopened (c :: cs) ↔ ¬(c = '$' ∧ cs.head? = some '\x7b') ∧ Unopened cs := by
  have hprefix : ['$', '\x7b'] <+: c :: cs ↔ c = '$' ∧ cs.head? = some '\x7b' := by
    rcases cs with _ | ⟨d, cs⟩ <;> simp [List.cons_prefix_cons, eq_comm]
  rw [Unopened, List.infix_cons_iff, not_or, hprefix, Unopened]

theorem unopened_of_not_mem (h : '$' ∉ cs) : Unopened cs := fun hmem => h (hmem.subset (by decide))

/-- A placeholder opens in one of two texts, or where they meet. -/
theorem unopened_append : Unopened (a ++ b) ↔
    Unopened a ∧ Unopened b ∧ ¬(a.getLast? = some '$' ∧ b.head? = some '\x7b') := by
  induction a with
  | nil => simp [unopened_nil]
  | cons c a ih =>
    rw [List.cons_append, unopened_cons, ih, unopened_cons]
    rcases a with _ | ⟨d, a⟩
    · simp [unopened_nil, and_comm]
    · simp [and_assoc]

/-- Every placeholder holds its opening. -/
theorem Unopened.absent (h : Unopened cs) : Placeholder.Absent cs := by
  intro p hp
  rw [← List.append_nil p.written.toList, Placeholder.toList_written_append] at hp
  exact h (List.IsInfix.trans (List.prefix_append ['$', '\x7b'] _).isInfix hp)

/-- Closing gaps opens nothing: blanks stay between what they stand between. -/
theorem Collapses.unopened (h : Collapses cs out) (hcs : Unopened cs) : Unopened out := by
  induction h with
  | nil => exact unopened_nil
  | @other c cs out solid others ih =>
    obtain ⟨hmeet, hrest⟩ := unopened_cons.1 hcs
    refine unopened_cons.2 ⟨fun ⟨hc, hout⟩ => hmeet ⟨hc, ?_⟩, ih hrest⟩
    exact others.head?_eq hout rfl
  | run ne_nil blank whole closes others ih =>
    have hdollar : '$' ∉ _ := fun hmem => nomatch blank _ (closes.subset hmem)
    refine unopened_append.2 ⟨unopened_of_not_mem hdollar, ih (unopened_append.1 hcs).2.1, ?_⟩
    exact fun ⟨hlast, _⟩ => hdollar (List.mem_of_getLast? hlast)

/-! ## Texts that stand next to anything -/

/-- Whether a text opens no placeholder, and none opens where it meets another that opens none. -/
structure Sealed (cs : List Char) : Prop where
  ne_nil : cs ≠ []
  unopened : Unopened cs
  head?_ne : cs.head? ≠ some '\x7b'
  getLast?_ne : cs.getLast? ≠ some '$'

instance (cs : List Char) : Decidable (Sealed cs) :=
  decidable_of_iff (cs ≠ [] ∧ Unopened cs ∧ cs.head? ≠ some '\x7b' ∧ cs.getLast? ≠ some '$')
    ⟨fun h => ⟨h.1, h.2.1, h.2.2.1, h.2.2.2⟩, fun h => ⟨h.1, h.2, h.3, h.4⟩⟩

namespace Sealed

/-- A text that opens nothing, between two that are sealed. -/
theorem around (ha : Sealed a) (hx : Unopened x) (hb : Sealed b) : Sealed (a ++ (x ++ b)) := by
  refine ⟨by simp [ha.ne_nil], ?_, ?_, ?_⟩
  · have hrest : Unopened (x ++ b) := unopened_append.2 ⟨hx, hb.unopened, fun h => hb.head?_ne h.2⟩
    exact unopened_append.2 ⟨ha.unopened, hrest, fun h => ha.getLast?_ne h.1⟩
  · rw [List.head?_append_of_ne_nil _ ha.ne_nil]
    exact ha.head?_ne
  · rw [← List.append_assoc, List.getLast?_append_of_ne_nil _ hb.ne_nil]
    exact hb.getLast?_ne

theorem append (ha : Sealed a) (hb : Sealed b) : Sealed (a ++ b) := ha.around unopened_nil hb

theorem joinWith {separator : String} (hseparator : Sealed separator.toList) {texts : List String}
    (hne : texts ≠ []) (h : ∀ t ∈ texts, Sealed t.toList) :
    Sealed (Text.joinWith separator texts).toList :=
  joinWith_induction (fun ha hb => ha.append (hseparator.append hb)) hne h

end Sealed

theorem sealed_spaces {k : Nat} (hk : 0 < k) : Sealed (List.replicate k ' ') := by
  have hspace : ∀ d ∈ List.replicate k ' ', d = ' ' := fun d => List.eq_of_mem_replicate
  refine ⟨by simpa using hk.ne', unopened_of_not_mem fun h => ?_, fun h => ?_, fun h => ?_⟩
  · exact absurd (hspace _ h) (by decide)
  · exact absurd (hspace _ (List.mem_of_head? h)) (by decide)
  · exact absurd (hspace _ (List.mem_of_getLast? h)) (by decide)

theorem unopened_joinWith {separator : String} (hseparator : Sealed separator.toList)
    {texts : List String}
    (h : ∀ t ∈ texts, Sealed t.toList) : Unopened (joinWith separator texts).toList := by
  by_cases hnil : texts = []
  · rw [hnil]
    exact unopened_nil
  · exact (hseparator.joinWith hnil h).unopened

theorem Unopened.padRight {text : String} (h : Unopened text.toList) (width : Nat) :
    Unopened (padRight width text).toList := by
  rw [toList_padRight]
  have hdollar : '$' ∉ List.replicate (width - text.length) ' ' := by simp
  have hbrace : (List.replicate (width - text.length) ' ').head? ≠ some '\x7b' := fun hhead =>
    absurd (List.eq_of_mem_replicate (List.mem_of_head? hhead)) (by decide)
  exact unopened_append.2 ⟨h, unopened_of_not_mem hdollar, fun hmeet => hbrace hmeet.2⟩

end Text

theorem unopened_terminatedName {name : String} (h : Unopened name.toList) :
    Unopened (terminatedName name).toList := by
  rcases terminatedName_eq_or name with hname | ⟨-, hname⟩
  · rwa [hname]
  · rw [hname, String.toList_append]
    exact unopened_append.2 ⟨h, by decide, fun hmeet => absurd hmeet.2 (by decide)⟩

/-! ## Blocks -/

/-- Whether no string of a signature opens a placeholder. -/
structure Signature.Unopened (s : Signature) : Prop where
  name : Text.Unopened s.name.toList
  parameter : ∀ p ∈ s.parameters, Text.Unopened p.name.toList ∧ Text.Unopened p.value.toList
  port : ∀ p ∈ s.allPorts, Text.Unopened p.name.toList ∧ Text.Unopened p.range.toList

namespace Block

variable {ps : List Parameter} {ports : List Port}

/-- A name in a column. -/
theorem unopened_column {name : String} (h : Unopened name.toList) (width : Nat) :
    Unopened (padRight width (terminatedName name)).toList :=
  (unopened_terminatedName h).padRight width

theorem unopened_parameterDeclaration
    (h : ∀ p ∈ ps, Unopened p.name.toList ∧ Unopened p.value.toList) :
    Unopened (parameterDeclaration ps).toList := by
  refine unopened_joinWith (by decide) fun t ht => ?_
  obtain ⟨p, hp, rfl⟩ := List.mem_map.1 ht
  obtain ⟨hname, hvalue⟩ := h p hp
  have hkeyword : Sealed "parameter ".toList := by decide
  have hequals : Sealed " = ".toList := by decide
  have hsemicolon : Sealed ";".toList := by decide
  simp only [String.toList_append, List.append_assoc]
  exact hkeyword.around (unopened_column hname _) (hequals.around (hvalue.padRight _) hsemicolon)

theorem unopened_portDeclaration (d : Direction)
    (h : ∀ p ∈ ports, Unopened p.name.toList ∧ Unopened p.range.toList) :
    Unopened (portDeclaration d ports).toList := by
  refine unopened_joinWith (by decide) fun t ht => ?_
  obtain ⟨p, hp, rfl⟩ := List.mem_map.1 ht
  obtain ⟨hname, hrange⟩ := h p hp
  have hkeyword : Sealed (padRight 5 (signalKeyword d)).toList := by
    cases d <;> decide
  have hspaces : Sealed (List.replicate (widest (ports.map Port.range) + 1 - p.range.length) ' ') :=
    by
    have := length_le_widest (List.mem_map_of_mem (f := Port.range) hp)
    exact sealed_spaces (by omega)
  have hend : Sealed ((signalInitializer d).toList ++ ";".toList) := by
    cases d <;> decide
  simp only [String.toList_append, List.append_assoc, toList_padRight _ p.range]
  exact hkeyword.around hrange (hspaces.around (unopened_column hname _) hend)

theorem sealed_connection {name : String} (h : Unopened name.toList) (width : Nat) :
    Sealed (connection width (terminatedName name)).toList := by
  have hpoint : Sealed "    .".toList := by decide
  have hopening : Sealed "(".toList := by decide
  have hclosing : Sealed ")".toList := by decide
  have hname := unopened_column h width
  simp only [connection, String.toList_append, List.append_assoc]
  exact hpoint.around hname (hopening.around hname hclosing)

theorem unopened_parameterDefinition (h : ∀ p ∈ ps, Unopened p.name.toList) :
    Unopened (parameterDefinition ps).toList := by
  rw [parameterDefinition]
  split
  · exact unopened_nil
  · have hopening : Sealed "#(\n".toList := by decide
    have hclosing : Sealed "\n)".toList := by decide
    have hlines : Unopened (joinWith ",\n" (parameterConnections ps)).toList := by
      refine unopened_joinWith (by decide) fun t ht => ?_
      obtain ⟨p, hp, rfl⟩ := exists_of_mem_parameterConnections ht
      exact sealed_connection (h p hp) _
    simp only [String.toList_append, List.append_assoc]
    exact (hopening.around hlines hclosing).unopened

theorem unopened_portConnection {s : Signature} (h : ∀ p ∈ s.allPorts, Unopened p.name.toList) :
    Unopened (portConnection s).toList := by
  refine unopened_joinWith (by decide) fun t ht => ?_
  obtain ⟨group, hgroup, rfl⟩ := List.mem_map.1 ht
  obtain ⟨hmem, hne⟩ := List.mem_filter.1 hgroup
  refine Sealed.joinWith (by decide) (by simpa using hne) fun t ht => ?_
  obtain ⟨p, hp, rfl⟩ := exists_of_mem_portConnections hmem ht
  exact sealed_connection (h p hp) _

end Block

/-! ## Templates -/

namespace Placeholder

/-- No block opens a placeholder that the signature does not bring along. -/
theorem unopened_expand {s : Signature} (h : s.Unopened) (p : Placeholder) :
    Unopened (p.expand s).toList := by
  have hports : ∀ d, ∀ p ∈ s.ports d, Unopened p.name.toList ∧ Unopened p.range.toList :=
    fun d p hp =>
    h.port p (Signature.mem_allPorts.2 ⟨d, hp⟩)
  cases p with
  | moduleName => exact unopened_terminatedName h.name
  | parameterDeclaration => exact Block.unopened_parameterDeclaration h.parameter
  | parameterDefinition => exact Block.unopened_parameterDefinition fun p hp => (h.parameter p hp).1
  | inputDeclaration => exact Block.unopened_portDeclaration .input (hports .input)
  | outputDeclaration => exact Block.unopened_portDeclaration .output (hports .output)
  | inoutDeclaration => exact Block.unopened_portDeclaration .inout (hports .inout)
  | portConnection => exact Block.unopened_portConnection fun p hp => (h.port p hp).1

variable {fill : Placeholder → List Char} {cs : List Char}

/-- The worst that a placeholder can stand for without opening one: it starts as an opening ends,
and ends as one starts. -/
def worst (_ : Placeholder) : List Char := ['\x7b', '$']

/-- A template in which the worst opens nothing is filled in safely. What is filled in opens nothing
either, and starts with a brace at most where the worst does. -/
theorem unopened_and_head?_scan (hfill : ∀ p, Unopened (fill p)) (h : Unopened (scan worst cs)) :
    Unopened (scan fill cs) ∧
      ((scan fill cs).head? = some '\x7b' → (scan worst cs).head? = some '\x7b') := by
  fun_induction scan fill cs with
  | case1 =>
    refine ⟨unopened_nil, fun hhead => ?_⟩
    cases hhead
  | case2 c cs p hstart ih =>
    obtain ⟨rest, hcs⟩ := start?_eq_some_iff.1 hstart
    rw [← hcs, List.drop_left] at ih ⊢
    rw [← hcs, scan_written] at h
    rw [scan_written]
    obtain ⟨-, hrest, hmeet⟩ := unopened_append.1 h
    obtain ⟨hunopened, hhead⟩ := ih hrest
    exact ⟨unopened_append.2 ⟨hfill p, hunopened, fun hopens => hmeet ⟨rfl, hhead hopens.2⟩⟩,
      fun _ => rfl⟩
  | case3 c cs hstart ih =>
    rw [scan_cons hstart] at h ⊢
    obtain ⟨hmeet, hrest⟩ := unopened_cons.1 h
    obtain ⟨hunopened, hhead⟩ := ih hrest
    exact ⟨unopened_cons.2 ⟨fun hopens => hmeet ⟨hopens.1, hhead hopens.2⟩, hunopened⟩, id⟩

end Placeholder

namespace Template

open Placeholder (Absent scan)

/-- The lines of the template of a kind that comes with the program. -/
def bundledLines : ScaffoldKind → List String
  | .instantiation => instantiationLines
  | .testbench => testbenchLines

theorem toList_bundled (kind : ScaffoldKind) :
    (bundled kind).toList = (bundledLines kind).flatMap fun line => line.toList ++ ['\n'] := by
  have hlines : bundled kind = String.join ((bundledLines kind).map (· ++ "\n")) := by
    cases kind <;> rfl
  simp only [hlines, String.toList_join, List.flatMap_map, String.toList_append]
  rfl

/-- The bundled templates open nothing but their placeholders. -/
theorem unopened_scan_bundled (kind : ScaffoldKind) :
    Unopened (scan Placeholder.worst (bundled kind).toList) := by
  rw [toList_bundled]
  cases kind <;> decide +kernel

/-! ## Rendered text -/

theorem toList_render (template : String) (s : Signature) : (render template s).toList =
    collapseBlankLines (scan (fun p => (p.expand s).toList) template.toList) := by
  rw [render, String.toList_ofList, Placeholder.substitute_eq_scan]

theorem gapFree_render (template : String) (s : Signature) :
    GapFree (render template s).toList := by
  rw [toList_render]
  exact gapFree_collapseBlankLines _

/-- A template without a placeholder is rendered as itself just if it has no gap. -/
theorem render_eq_self_iff {template : String} (habsent : Absent template.toList) (s : Signature) :
    render template s = template ↔ GapFree template.toList := by
  rw [← String.toList_inj, toList_render, Placeholder.scan_eq_self habsent]
  exact collapseBlankLines_eq_self_iff

/-- The bundled templates leave no placeholder behind that the signature does not bring along. -/
theorem unopened_render_bundled (kind : ScaffoldKind) {s : Signature} (h : s.Unopened) :
    Unopened (render (bundled kind) s).toList := by
  rw [toList_render]
  refine (collapses_collapseBlankLines _).unopened ?_
  exact (Placeholder.unopened_and_head?_scan (Placeholder.unopened_expand h)
    (unopened_scan_bundled kind)).1

/-- **Rendering once is enough.** A template without a placeholder is rendered as itself just if it
has no gap, so rendered text without one stays as it is, for whatever module it is rendered again.
The text of a bundled template is without one, and without a gap, if no string of the signature
opens a placeholder. -/
theorem render_stable :
    (∀ template s, Absent template.toList →
      (render template s = template ↔ GapFree template.toList)) ∧
    (∀ template s t, Absent (render template s).toList →
      render (render template s) t = render template s) ∧
    ∀ kind s, s.Unopened → Absent (render (bundled kind) s).toList ∧
      GapFree (render (bundled kind) s).toList ∧
      ∀ t, render (render (bundled kind) s) t = render (bundled kind) s := by
  have hstable : ∀ template s t, Absent (render template s).toList →
      render (render template s) t = render template s := fun template s t habsent =>
    (render_eq_self_iff habsent t).2 (gapFree_render template s)
  refine ⟨fun template s habsent => render_eq_self_iff habsent s, hstable, fun kind s hs => ?_⟩
  have habsent := (unopened_render_bundled kind hs).absent
  exact ⟨habsent, gapFree_render _ s, fun t => hstable _ s t habsent⟩

/-- A name that starts with a brace and ends in a dollar sign, between a dollar sign and a brace. An
opening in front of a gap is no placeholder, and loses the gap. -/
theorem render_stable_meeting :
    ∃ s : Signature, s.Unopened ∧ render "$$\x7bMODULE_NAME\x7d\x7b\n\n\n\n" s = "$\x7bm$\x7b\n\n" ∧
      (∀ t, render "$\x7bm$\x7b\n\n" t = "$\x7bm$\x7b\n\n") ∧
      (∀ t, render "$\x7b\n\n\n" t ≠ "$\x7b\n\n\n") ∧
      ∀ kind t, render (render (bundled kind) s) t = render (bundled kind) s := by
  let s : Signature := ⟨"\x7bm$", [⟨"$", "\x7bMODULE_NAME\x7d"⟩], [⟨"\x7ba\x7d", "[$"⟩], [], []⟩
  have hunopened : s.Unopened := ⟨by decide, by decide, by decide⟩
  have hrender : render "$$\x7bMODULE_NAME\x7d\x7b\n\n\n\n" s = "$\x7bm$\x7b\n\n" := by
    decide +kernel
  obtain ⟨hself, hstable, hbundled⟩ := render_stable
  refine ⟨s, hunopened, hrender, fun t => ?_, fun t => ?_,
    fun kind => (hbundled kind s hunopened).2.2⟩
  · have habsent : Absent (render "$$\x7bMODULE_NAME\x7d\x7b\n\n\n\n" s).toList := by
      rw [hrender]
      exact Placeholder.absent_of_not_mem (by decide)
    have := hstable _ s t habsent
    rwa [hrender] at this
  · rw [Ne, hself _ t (Placeholder.absent_of_not_mem (by decide))]
    exact fun h => absurd (h ['$', '\x7b'] ['\n', '\n', '\n'] [] rfl (by decide)) (by decide)

end Template

end VerilogScaffold
