import VerilogScaffold.Template.Placeholder

/-!
# Substitution is a plain scan

A template is read once from left to right. From an opening `${` substitution looks for the first
closing brace anywhere behind it, and takes up two characters further on if what stands between is
no name. That is the same as to ask at each character whether one of the seven placeholders starts
there (`substitute_eq_scan`): a name holds neither a dollar sign nor a brace, so nothing that the
search runs over can hide a placeholder, and no two placeholders overlap.

So a placeholder is replaced wherever it stands (`scan_append_written`), and text without one stays
(`scan_eq_self`). The output for a known template is written down piece by piece.
-/

namespace VerilogScaffold.Placeholder

variable {fill : Placeholder → List Char} {p q : Placeholder} {cs rest : List Char}

/-- The placeholder that a text starts with. -/
def start? (cs : List Char) : Option Placeholder := all.find? (·.written.toList.isPrefixOf cs)

theorem length_written_pos (p : Placeholder) : 0 < p.written.toList.length := by
  cases p <;> decide

/-- Scans a text from left to right: where a placeholder starts it is filled in and passed over, and
any other character is copied. -/
def scan (fill : Placeholder → List Char) : List Char → List Char
  | [] => []
  | c :: cs =>
    match start? (c :: cs) with
    | some p => fill p ++ scan fill ((c :: cs).drop p.written.toList.length)
    | none => c :: scan fill cs
termination_by cs => cs.length
decreasing_by
  · have := length_written_pos p
    simp only [List.length_drop, List.length_cons]
    omega
  · simp

/-- Whether a text holds no placeholder. -/
def Absent (cs : List Char) : Prop := ∀ p : Placeholder, ¬p.written.toList <:+: cs

/-! ## Where placeholders start -/

theorem mem_all (p : Placeholder) : p ∈ all := by
  cases p <;> decide

theorem ofName?_name (p : Placeholder) : ofName? p.name = some p := by
  cases p <;> decide

theorem name_of_ofName? {name : String} (h : ofName? name = some p) : p.name = name := by
  simpa using List.find?_some h

theorem closed?_append {name : List Char} (hname : '\x7d' ∉ name) (rest : List Char) :
    closed? (name ++ '\x7d' :: rest) = (ofName? (String.ofList name)).map (·, rest) := by
  have hpassed : ∀ c ∈ name, (c != '\x7d') = true := by
    rintro c hc
    simpa using fun h : c = '\x7d' => hname (h ▸ hc)
  rw [closed?, List.dropWhile_append_of_pos hpassed, List.takeWhile_append_of_pos hpassed]
  simp

/-- A placeholder is closed by the first brace behind its name. -/
theorem closed?_eq_some_iff :
    closed? cs = some (p, rest) ↔ cs = p.name.toList ++ '\x7d' :: rest := by
  constructor
  · intro h
    rw [closed?] at h
    split at h
    · cases h
    · rename_i c after hdrop
      obtain ⟨q, hname, hq⟩ := Option.map_eq_some_iff.1 h
      obtain ⟨rfl, rfl⟩ := Prod.mk.inj hq
      have hbrace : c = '\x7d' := by
        have := List.head_dropWhile_not (· != '\x7d') (l := cs) (by simp [hdrop])
        simpa [hdrop] using this
      subst hbrace
      rw [name_of_ofName? hname, String.toList_ofList, ← hdrop, List.takeWhile_append_dropWhile]
  · rintro rfl
    have hname : '\x7d' ∉ p.name.toList := by
      cases p <;> decide
    rw [closed?_append hname, String.ofList_toList, ofName?_name, Option.map_some]

theorem toList_written_append (p : Placeholder) (rest : List Char) :
    p.written.toList ++ rest = '$' :: '\x7b' :: (p.name.toList ++ '\x7d' :: rest) := by
  rw [written, String.toList_append, String.toList_append, List.append_assoc, List.append_assoc]
  rfl

/-- Two placeholders that start a text are one. -/
theorem written_prefix_unique (hp : p.written.toList <+: cs)
    (hq : q.written.toList <+: cs) : p = q := by
  obtain ⟨rest, rfl⟩ := hp
  obtain ⟨rest', hcs⟩ := hq
  rw [toList_written_append, toList_written_append] at hcs
  have hclosed := closed?_eq_some_iff.2 (List.cons.inj (List.cons.inj hcs).2).2
  rw [closed?_eq_some_iff.2 rfl] at hclosed
  exact (Prod.mk.inj (Option.some.inj hclosed)).1.symm

theorem start?_eq_none_iff : start? cs = none ↔ ∀ p : Placeholder, ¬p.written.toList <+: cs := by
  rw [start?, List.find?_eq_none]
  constructor
  · exact fun h p hp => h p p.mem_all (List.isPrefixOf_iff_prefix.2 hp)
  · exact fun h p _ hp => h p (List.isPrefixOf_iff_prefix.1 hp)

theorem start?_eq_some_iff : start? cs = some p ↔ p.written.toList <+: cs := by
  have hstarts : ∀ {q : Placeholder}, start? cs = some q → q.written.toList <+: cs := fun h => by
    simpa using List.find?_some h
  refine ⟨hstarts, fun hp => ?_⟩
  rcases hstart : start? cs with _ | q
  · exact absurd hp (start?_eq_none_iff.1 hstart p)
  · rw [written_prefix_unique (hstarts hstart) hp]

/-! ## One step of a scan -/

theorem scan_nil : scan fill [] = [] := by
  rw [scan]

/-- A placeholder is filled in. -/
theorem scan_written (fill : Placeholder → List Char) (p : Placeholder) (rest : List Char) :
    scan fill (p.written.toList ++ rest) = fill p ++ scan fill rest := by
  have hstart : start? (p.written.toList ++ rest) = some p :=
    start?_eq_some_iff.2 (List.prefix_append _ _)
  have hdrop : (p.written.toList ++ rest).drop p.written.toList.length = rest := List.drop_left
  rw [toList_written_append] at hstart hdrop ⊢
  rw [scan, hstart]
  exact congrArg (fill p ++ scan fill ·) hdrop

/-- A character with which no placeholder starts is copied. -/
theorem scan_cons {c : Char} (h : start? (c :: cs) = none) :
    scan fill (c :: cs) = c :: scan fill cs := by
  rw [scan, h]

theorem start?_cons_of_ne {c : Char} (hc : c ≠ '$') (cs : List Char) : start? (c :: cs) = none := by
  refine start?_eq_none_iff.2 ?_
  rintro p ⟨rest, hp⟩
  rw [toList_written_append] at hp
  exact hc (List.cons.inj hp).1.symm

/-- **Substitution is a scan.** -/
theorem substitute_eq_scan (s : Signature) (cs : List Char) :
    substitute s cs = scan (fun p => (p.expand s).toList) cs := by
  fun_induction substitute s cs with
  | case1 cs p rest hclosed ih =>
    rw [closed?_eq_some_iff.1 hclosed, ← toList_written_append, scan_written, ih]
  | case2 cs hclosed ih =>
    have hstart : start? ('$' :: '\x7b' :: cs) = none := by
      refine start?_eq_none_iff.2 ?_
      rintro p ⟨rest, hp⟩
      rw [toList_written_append] at hp
      rw [closed?_eq_some_iff.2 (List.cons.inj (List.cons.inj hp).2).2.symm] at hclosed
      cases hclosed
    rw [scan_cons hstart, scan_cons (start?_cons_of_ne (by decide) cs), ih]
  | case3 c cs hopening ih =>
    have hstart : start? (c :: cs) = none := by
      refine start?_eq_none_iff.2 ?_
      rintro p ⟨rest, hp⟩
      rw [toList_written_append] at hp
      obtain ⟨rfl, hcs⟩ := List.cons.inj hp
      exact hopening _ rfl hcs.symm
    rw [scan_cons hstart, ih]
  | case4 => rw [scan_nil]

/-! ## What a scan replaces -/

/-- A placeholder that starts in front of another one ends there as well. -/
theorem written_prefix_of_append (hcs : cs ≠ [])
    (h : q.written.toList <+: cs ++ (p.written.toList ++ rest)) :
    q.written.toList <+: cs := by
  rcases List.prefix_or_prefix_of_prefix h (List.prefix_append cs _) with h' | ⟨tail, htail⟩
  · exact h'
  · rw [← htail, List.prefix_append_right_inj] at h
    rcases tail with _ | ⟨c, tail⟩
    · rw [List.append_nil] at htail
      exact htail ▸ List.prefix_rfl
    · -- the rest of the first placeholder would start with the dollar sign of the second
      obtain ⟨more, hmore⟩ := h
      rw [toList_written_append] at hmore
      obtain ⟨rfl, -⟩ := List.cons.inj hmore
      have hdollar : '$' ∉ q.written.toList.tail := by
        cases q <;> decide
      rw [← htail, List.tail_append_of_ne_nil hcs] at hdollar
      exact absurd (List.mem_append_right _ (List.mem_cons_self ..)) hdollar

/-- A placeholder is replaced wherever it stands, and what stands on either side of it is read as if
it stood alone. -/
theorem scan_append_written (fill : Placeholder → List Char) (before : List Char) (p : Placeholder)
    (after : List Char) :
    scan fill (before ++ (p.written.toList ++ after)) =
      scan fill before ++ (fill p ++ scan fill after) := by
  fun_induction scan fill before with
  | case1 => rw [List.nil_append, List.nil_append, scan_written]
  | case2 c cs q hstart ih =>
    obtain ⟨rest, hcs⟩ := start?_eq_some_iff.1 hstart
    rw [← hcs, List.drop_left] at ih ⊢
    rw [List.append_assoc, scan_written, ih, List.append_assoc]
  | case3 c cs hstart ih =>
    have hstart' : start? (c :: (cs ++ (p.written.toList ++ after))) = none := by
      refine start?_eq_none_iff.2 fun q hq => ?_
      exact start?_eq_none_iff.1 hstart q (written_prefix_of_append (List.cons_ne_nil c cs) hq)
    rw [List.cons_append, scan_cons hstart', ih, List.cons_append]

/-- Text without a placeholder stays. -/
theorem scan_eq_self (h : Absent cs) : scan fill cs = cs := by
  induction cs with
  | nil => exact scan_nil
  | cons c cs ih =>
    have hstart : start? (c :: cs) = none := start?_eq_none_iff.2 fun p hp => h p hp.isInfix
    rw [scan_cons hstart, ih fun p hp => h p (List.infix_cons hp)]

/-- A placeholder holds a closing brace. -/
theorem absent_of_not_mem (h : '\x7d' ∉ cs) : Absent cs := by
  intro p hp
  have hbrace : '\x7d' ∈ p.written.toList := by
    cases p <;> decide
  exact h (hp.subset hbrace)

section

variable (s : Signature)

/-- A placeholder is replaced by what it stands for. -/
theorem substitute_written (p : Placeholder) (rest : List Char) :
    substitute s (p.written.toList ++ rest) = (p.expand s).toList ++ substitute s rest := by
  rw [substitute_eq_scan, scan_written, substitute_eq_scan]

/-- Text without an opening brace stays. -/
theorem substitute_append {text : List Char} (hbrace : '\x7b' ∉ text)
    (hdollar : text.getLast? ≠ some '$')
    (rest : List Char) : substitute s (text ++ rest) = text ++ substitute s rest := by
  induction text with
  | nil => rfl
  | cons c text ih =>
    have hbrace' : '\x7b' ∉ text := fun h => hbrace (List.mem_cons_of_mem _ h)
    have hdollar' : text.getLast? ≠ some '$' := by
      rcases text with _ | ⟨d, text⟩
      · exact fun h => nomatch h
      · rwa [List.getLast?_cons_cons] at hdollar
    rw [List.cons_append, substitute, ih hbrace' hdollar', List.cons_append]
    rintro cs rfl hcs
    rcases text with _ | ⟨d, text⟩
    · exact hdollar rfl
    · obtain ⟨rfl, -⟩ := List.cons.inj hcs
      exact hbrace' (List.mem_cons_self ..)

theorem substitute_eq_self {text : List Char} (hbrace : '\x7b' ∉ text)
    (hdollar : text.getLast? ≠ some '$') :
    substitute s text = text := by
  have := substitute_append s hbrace hdollar []
  rwa [substitute, List.append_nil] at this

end

/-- **Substitution replaces every placeholder, and nothing else.** It scans a text from left to
right, whatever opens or closes in it without being a placeholder. A placeholder is replaced
wherever it stands; what it stands for goes to the output as it is, and so does text that holds
none. -/
theorem substitute_exact (s : Signature) :
    (∀ cs, substitute s cs = scan (fun p => (p.expand s).toList) cs) ∧
      (∀ before (p : Placeholder) after, substitute s (before ++ (p.written.toList ++ after)) =
        substitute s before ++ ((p.expand s).toList ++ substitute s after)) ∧
      ∀ cs, Absent cs → substitute s cs = cs := by
  refine ⟨substitute_eq_scan s, fun before p after => ?_, fun cs habsent => ?_⟩
  · rw [substitute_eq_scan, scan_append_written, substitute_eq_scan, substitute_eq_scan]
  · rw [substitute_eq_scan, scan_eq_self habsent]

/-- A placeholder between two that are never closed, in a module that is named like a
placeholder. -/
theorem substitute_exact_unclosed :
    Absent "$\x7bA $".toList ∧ Absent " $\x7b".toList ∧
      substitute ⟨"$\x7bPORT_CONNECTION\x7d", [], [], [], []⟩
        "$\x7bA $$\x7bMODULE_NAME\x7d $\x7b".toList =
        "$\x7bA $$\x7bPORT_CONNECTION\x7d $\x7b".toList := by
  have hbefore : Absent "$\x7bA $".toList := absent_of_not_mem (by decide)
  have hafter : Absent " $\x7b".toList := absent_of_not_mem (by decide)
  refine ⟨hbefore, hafter, ?_⟩
  obtain ⟨-, hwritten, hself⟩ := substitute_exact ⟨"$\x7bPORT_CONNECTION\x7d", [], [], [], []⟩
  have hcut := hwritten "$\x7bA $".toList .moduleName " $\x7b".toList
  rw [hself _ hbefore, hself _ hafter] at hcut
  exact hcut

end VerilogScaffold.Placeholder
