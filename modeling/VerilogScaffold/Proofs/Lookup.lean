import VerilogScaffold.Proofs.Relocation
import VerilogScaffold.Proofs.Stretch

/-!
# Looking up what an outline says

What a signature holds depends on the source through lookups alone, and a lookup asks for the text
from the start of one token to the end of another. `Carries` compares two sources under two ways of
placing tokens: whatever the first lookup finds, the second finds too. An outline whose places carry
over then yields the same signature (`ofOutline?_of_carries`).

Tokens that lie on an addressable source can all be looked up (`exists_ofOutline?`).
-/

namespace VerilogScaffold

variable {P : Type} {a b : String} {φ ψ : P → Span} {p : P → Prop}

@[simp] theorem Span.merge_self (s : Span) : s.merge s = s := by
  have hmin : min s.start s.start = s.start := by
    show (if s.start ≤ s.start then s.start else s.start) = _
    split <;> rfl
  have hmax : max s.stop s.stop = s.stop := by
    show (if s.stop ≤ s.stop then s.stop else s.stop) = _
    split <;> rfl
  rw [merge, hmin, hmax]

/-- Every text found in `a` from one place to another is found in `b` under the other placing. -/
def Carries (a b : String) (φ ψ : P → Span) (p : P → Prop) : Prop :=
  ∀ x y, p x → p y → ∀ text, ((φ x).merge (φ y)).text? a = some text →
    ((ψ x).merge (ψ y)).text? b = some text

theorem Carries.single (h : Carries a b φ ψ p) {x : P} (hx : p x) {text : String}
    (htext : (φ x).text? a = some text) : (ψ x).text? b = some text := by
  have := h x x hx hx text
  rw [Span.merge_self, Span.merge_self] at this
  exact this htext

/-! ## Signatures -/

namespace Signature

theorem rangeText?_of_carries (h : Carries a b φ ψ p) {range : Option (Extent P)}
    (hrange : ∀ e ∈ range, e.Forall p) {text : String}
    (htext : rangeText? a (range.map (Extent.map φ)) = some text) :
    rangeText? b (range.map (Extent.map ψ)) = some text := by
  rcases range with _ | range
  · exact htext
  · exact h _ _ (hrange range rfl).1 (hrange range rfl).2 _ htext

theorem consFinding?_of_carries (h : Carries a b φ ψ p) {x : Finding P} (hx : x.Forall p)
    {s s' : Signature} (hs : consFinding? a (x.map φ) s = some s') :
    consFinding? b (x.map ψ) s = some s' := by
  rcases x with ⟨name, value⟩ | ⟨d, name, range⟩ | r
  · obtain ⟨hname, hfirst, hlast⟩ := hx
    obtain ⟨nameText, hnameText, hs⟩ := Option.bind_eq_some_iff.1 hs
    obtain ⟨valueText, hvalueText, hs⟩ := Option.bind_eq_some_iff.1 hs
    have hnameText' := h.single hname hnameText
    have hvalueText' := h _ _ hfirst hlast _ hvalueText
    exact Option.bind_eq_some_iff.2 ⟨nameText, hnameText',
      Option.bind_eq_some_iff.2 ⟨valueText, hvalueText', hs⟩⟩
  · obtain ⟨hname, hrange⟩ := hx
    obtain ⟨nameText, hnameText, hs⟩ := Option.bind_eq_some_iff.1 hs
    obtain ⟨rangeText, hrangeText, hs⟩ := Option.bind_eq_some_iff.1 hs
    exact Option.bind_eq_some_iff.2 ⟨nameText, h.single hname hnameText,
      Option.bind_eq_some_iff.2 ⟨rangeText, rangeText?_of_carries h hrange hrangeText, hs⟩⟩
  · cases r with
    | noPorts direction keyword range =>
      obtain ⟨rangeText, hrangeText, hs⟩ := Option.bind_eq_some_iff.1 hs
      exact Option.bind_eq_some_iff.2
        ⟨rangeText, rangeText?_of_carries h hx.2 hrangeText, hs⟩
    | _ => exact hs

/-- Adds what findings declare in front of what a signature already holds. -/
def consFindings? (source : String) (fs : List (Finding Span)) (s : Signature) : Option Signature :=
  fs.foldr (fun f s => s.bind (consFinding? source f)) (some s)

theorem consFindings?_of_carries {xs : List (Finding P)}
    (h : ∀ x ∈ xs, ∃ p, x.Forall p ∧ Carries a b φ ψ p) {s s' : Signature}
    (hs : consFindings? a (xs.map (Finding.map φ)) s = some s') :
    consFindings? b (xs.map (Finding.map ψ)) s = some s' := by
  induction xs generalizing s' with
  | nil => exact hs
  | cons x xs ih =>
    obtain ⟨p, hx, hcarries⟩ := h x (List.mem_cons_self ..)
    obtain ⟨later, hlater, hs⟩ := Option.bind_eq_some_iff.1 hs
    exact Option.bind_eq_some_iff.2
      ⟨later, ih (fun y hy => h y (List.mem_cons_of_mem _ hy)) hlater,
        consFinding?_of_carries hcarries hx hs⟩

/-- An outline whose places carry over yields the same signature. -/
theorem ofOutline?_of_carries {o : Outline P}
    (hname : ∃ p, p o.name.place ∧ Carries a b φ ψ p)
    (h : ∀ x ∈ o.findings, ∃ p, x.Forall p ∧ Carries a b φ ψ p) {s : Signature}
    (hs : ofOutline? a (o.map φ) = some s) : ofOutline? b (o.map ψ) = some s := by
  obtain ⟨p, hplace, hcarries⟩ := hname
  obtain ⟨nameText, hnameText, hs⟩ := Option.bind_eq_some_iff.1 hs
  exact Option.bind_eq_some_iff.2
    ⟨nameText, hcarries.single hplace hnameText, consFindings?_of_carries h hs⟩

end Signature

/-! ## What a signature holds -/

namespace Finding

/-- The parameter that a finding declares. -/
def parameter? : Finding P → Option (Lexeme P × Extent P)
  | .parameter name value => some (name, value)
  | _ => none

/-- The port of a direction that a finding declares. -/
def port? (d : Direction) : Finding P → Option (Lexeme P × Option (Extent P))
  | .port direction name range => if direction = d then some (name, range) else none
  | _ => none

theorem parameter?_eq_some_iff {x : Finding P} {p : Lexeme P × Extent P} :
    x.parameter? = some p ↔ x = .parameter p.1 p.2 := by
  rcases x with ⟨name, value⟩ | _ | _ <;> simp [parameter?, Prod.ext_iff]

theorem port?_eq_some_iff {x : Finding P} {d : Direction} {p : Lexeme P × Option (Extent P)} :
    x.port? d = some p ↔ x = .port d p.1 p.2 := by
  rcases x with _ | ⟨d', name, range⟩ | _ <;> simp [port?, Prod.ext_iff]

theorem mem_filterMap_parameter? {xs : List (Finding P)} {p : Lexeme P × Extent P} :
    p ∈ xs.filterMap parameter? ↔ .parameter p.1 p.2 ∈ xs := by
  simp [List.mem_filterMap, parameter?_eq_some_iff]

theorem mem_filterMap_port? {xs : List (Finding P)} {d : Direction}
    {p : Lexeme P × Option (Extent P)} :
    p ∈ xs.filterMap (port? d) ↔ .port d p.1 p.2 ∈ xs := by
  simp [List.mem_filterMap, port?_eq_some_iff]

end Finding

namespace Signature

variable {source : String}

/-- The parameter that a name and the extent of a value stand for. -/
def parameterAt? (source : String) (p : Token × Extent Span) : Option Parameter := do
  return ⟨← p.1.span.text? source, ← p.2.span.text? source⟩

/-- The port that a name and a range stand for. -/
def portAt? (source : String) (p : Token × Option (Extent Span)) : Option Port := do
  return ⟨← p.1.span.text? source, ← Signature.rangeText? source p.2⟩

theorem ports_consPort (s : Signature) (p : Port) (d d' : Direction) :
    (s.consPort p d).ports d' = if d = d' then p :: s.ports d' else s.ports d' := by
  cases d <;> cases d' <;> rfl

@[simp] theorem parameters_consPort (s : Signature) (p : Port) (d : Direction) :
    (s.consPort p d).parameters = s.parameters := by
  cases d <;> rfl

@[simp] theorem name_consPort (s : Signature) (p : Port) (d : Direction) :
    (s.consPort p d).name = s.name := by
  cases d <;> rfl

/-- A signature holds what findings declare, looked up in the source, in their order. -/
theorem eq_of_consFindings? {fs : List (Finding Span)} {name : String} {s : Signature}
    (hs : consFindings? source fs (ofName name) = some s) :
    s.name = name ∧ (fs.filterMap Finding.parameter?).mapM (parameterAt? source) =
      some s.parameters ∧
      ∀ d, (fs.filterMap (Finding.port? d)).mapM (portAt? source) = some (s.ports d) := by
  -- a signature is put together from the last finding on, so the head is added to what the rest
  -- gives
  induction fs generalizing s with
  | nil =>
    obtain rfl := Option.some.inj hs
    exact ⟨rfl, rfl, fun d => by cases d <;> rfl⟩
  | cons f fs ih =>
    obtain ⟨later, hlater, hs⟩ := Option.bind_eq_some_iff.1 hs
    obtain ⟨hname, hparameters, hports⟩ := ih hlater
    rcases f with ⟨n, value⟩ | ⟨d, n, range⟩ | r
    · obtain ⟨nameText, hnameText, hs⟩ := Option.bind_eq_some_iff.1 hs
      obtain ⟨valueText, hvalueText, hs⟩ := Option.bind_eq_some_iff.1 hs
      obtain rfl := Option.some.inj hs
      have hparameter : parameterAt? source (n, value) = some ⟨nameText, valueText⟩ := by
        simp only [parameterAt?, hnameText, hvalueText]
        rfl
      refine ⟨hname, ?_, hports⟩
      have hcons : (Finding.parameter n value :: fs).filterMap Finding.parameter? =
          (n, value) :: fs.filterMap Finding.parameter? := List.filterMap_cons_some rfl
      rw [hcons, List.mapM_cons, hparameter, hparameters]
      rfl
    · obtain ⟨nameText, hnameText, hs⟩ := Option.bind_eq_some_iff.1 hs
      obtain ⟨rangeText, hrangeText, hs⟩ := Option.bind_eq_some_iff.1 hs
      obtain rfl := Option.some.inj hs
      have hport : portAt? source (n, range) = some ⟨nameText, rangeText⟩ := by
        simp only [portAt?, hnameText, hrangeText]
        rfl
      refine ⟨by rw [name_consPort, hname], ?_, fun d' => ?_⟩
      · have hcons : (Finding.port d n range :: fs).filterMap Finding.parameter? =
            fs.filterMap Finding.parameter? := List.filterMap_cons_none rfl
        rw [hcons, hparameters, parameters_consPort]
      · rw [ports_consPort]
        by_cases hd : d = d'
        · have hcons : (Finding.port d n range :: fs).filterMap (Finding.port? d') =
              (n, range) :: fs.filterMap (Finding.port? d') := List.filterMap_cons_some (if_pos hd)
          rw [hcons, List.mapM_cons, hport, hports d', if_pos hd]
          rfl
        · have hcons : (Finding.port d n range :: fs).filterMap (Finding.port? d') =
              fs.filterMap (Finding.port? d') := List.filterMap_cons_none (if_neg hd)
          rw [hcons, hports d', if_neg hd]
    · have hlater' : later = s := by
        cases r with
        | noPorts direction keyword range =>
          obtain ⟨-, -, hs⟩ := Option.bind_eq_some_iff.1 hs
          exact Option.some.inj hs
        | _ => exact Option.some.inj hs
      subst hlater'
      exact ⟨hname, hparameters, hports⟩

end Signature

/-! ## Diagnostics -/

theorem mapM_eq_some_of_imp {A B : Type} {f g : A → Option B}
    (h : ∀ x y, f x = some y → g x = some y) {xs : List A} {ys : List B}
    (hxs : xs.mapM f = some ys) : xs.mapM g = some ys := by
  induction xs generalizing ys with
  | nil => exact hxs
  | cons x xs ih =>
    rw [List.mapM_cons] at hxs ⊢
    obtain ⟨y, hy, hxs⟩ := Option.bind_eq_some_iff.1 hxs
    obtain ⟨zs, hzs, hys⟩ := Option.bind_eq_some_iff.1 hxs
    exact Option.bind_eq_some_iff.2 ⟨y, h x y hy, Option.bind_eq_some_iff.2 ⟨zs, ih hzs, hys⟩⟩

theorem mapM_congr {A B : Type} {f g : A → Option B} {xs : List A} (h : ∀ x ∈ xs, f x = g x) :
    xs.mapM f = xs.mapM g := by
  induction xs with
  | nil => rfl
  | cons x xs ih =>
    rw [List.mapM_cons, List.mapM_cons, h x (List.mem_cons_self ..),
      ih fun y hy => h y (List.mem_cons_of_mem _ hy)]

/-- What is read off entries one by one can be read off what they are looked up as. -/
theorem map_eq_map_of_mapM {A B C : Type} {f : A → Option B} {g : B → C} {k : A → C}
    (h : ∀ x y, f x = some y → g y = k x) {xs : List A} {ys : List B} (hxs : xs.mapM f = some ys) :
    ys.map g = xs.map k := by
  induction xs generalizing ys with
  | nil =>
    obtain rfl := Option.some.inj hxs
    rfl
  | cons x xs ih =>
    rw [List.mapM_cons] at hxs
    obtain ⟨y, hy, hxs⟩ := Option.bind_eq_some_iff.1 hxs
    obtain ⟨zs, hzs, hxs⟩ := Option.bind_eq_some_iff.1 hxs
    obtain rfl := Option.some.inj hxs
    rw [List.map_cons, List.map_cons, h x y hy, ih hzs]

theorem exists_mapM_eq_some {A B : Type} {f : A → Option B} {xs : List A}
    (h : ∀ x ∈ xs, ∃ y, f x = some y) : ∃ ys, xs.mapM f = some ys := by
  induction xs with
  | nil => exact ⟨[], rfl⟩
  | cons x xs ih =>
    obtain ⟨y, hy⟩ := h x (List.mem_cons_self ..)
    obtain ⟨ys, hys⟩ := ih fun z hz => h z (List.mem_cons_of_mem _ hz)
    exact ⟨y :: ys, by rw [List.mapM_cons, hy, hys]; rfl⟩

theorem mem_of_mapM_eq_some {A B : Type} {f : A → Option B} {xs : List A} {ys : List B}
    (h : xs.mapM f = some ys) {y : B} (hy : y ∈ ys) : ∃ x ∈ xs, f x = some y := by
  induction xs generalizing ys with
  | nil =>
    obtain rfl := Option.some.inj h
    simp at hy
  | cons x xs ih =>
    rw [List.mapM_cons] at h
    obtain ⟨z, hz, h⟩ := Option.bind_eq_some_iff.1 h
    obtain ⟨zs, hzs, h⟩ := Option.bind_eq_some_iff.1 h
    obtain rfl := Option.some.inj h
    rcases List.mem_cons.1 hy with rfl | hy
    · exact ⟨x, List.mem_cons_self .., hz⟩
    · obtain ⟨x', hx', hy⟩ := ih hzs hy
      exact ⟨x', List.mem_cons_of_mem _ hx', hy⟩

/-- What is looked up one by one is all found. -/
theorem exists_mem_of_mapM_eq_some {A B : Type} {f : A → Option B} {xs : List A} {ys : List B}
    (h : xs.mapM f = some ys) {x : A} (hx : x ∈ xs) : ∃ y ∈ ys, f x = some y := by
  induction xs generalizing ys with
  | nil => cases hx
  | cons x' xs ih =>
    rw [List.mapM_cons] at h
    obtain ⟨y, hy, h⟩ := Option.bind_eq_some_iff.1 h
    obtain ⟨more, hmore, h⟩ := Option.bind_eq_some_iff.1 h
    obtain rfl := Option.some.inj h
    rcases List.mem_cons.1 hx with rfl | hx
    · exact ⟨y, List.mem_cons_self .., hy⟩
    · obtain ⟨z, hz, hfz⟩ := ih hmore hx
      exact ⟨z, List.mem_cons_of_mem _ hz, hfz⟩

/-- Looking names up one by one, and making something of each. -/
theorem mapM_map_eq {A B C D : Type} {f : C → Option D} {g : A → C} {look : A → Option B}
    {make : B → D} (h : ∀ a, f (g a) = (look a).map make) (as : List A) :
    (as.map g).mapM f = (as.mapM look).map (List.map make) := by
  induction as with
  | nil => rfl
  | cons a as ih =>
    rw [List.map_cons, List.mapM_cons, List.mapM_cons, h, ih]
    rcases look a with _ | b
    · rfl
    · rcases as.mapM look with _ | bs <;> rfl

/-- A source in which every text of another is found, at the same place, has its diagnostics. -/
theorem Remark.diagnostic?_mono (h : ∀ s text, Span.text? s a = some text → s.text? b = some text)
    {r : Remark Span} {d : Diagnostic} (hd : r.diagnostic? a = some d) :
    r.diagnostic? b = some d := by
  cases r with
  | parameterWithoutName keyword => exact hd
  | noPorts direction keyword range => exact hd
  | parameterWithoutValue name | parameterWithEmptyValue name | portDefault name =>
    obtain ⟨text, htext, hd⟩ := Option.bind_eq_some_iff.1 hd
    exact Option.bind_eq_some_iff.2 ⟨text, h _ _ htext, hd⟩

namespace Outline

theorem remarkDiagnostics?_mono (h : ∀ s text, Span.text? s a = some text → s.text? b = some text)
    {o : Outline Span} {ds : List Diagnostic} (hds : o.remarkDiagnostics? a = some ds) :
    o.remarkDiagnostics? b = some ds :=
  mapM_eq_some_of_imp (fun _ _ => Remark.diagnostic?_mono h) hds

theorem nameDiagnostics?_mono (h : ∀ s text, Span.text? s a = some text → s.text? b = some text)
    {o : Outline Span} {ds : List Diagnostic} (hds : o.nameDiagnostics? a = some ds) :
    o.nameDiagnostics? b = some ds := by
  rw [nameDiagnostics?] at hds ⊢
  split at hds
  · rename_i hkind
    obtain ⟨text, htext, hds⟩ := Option.bind_eq_some_iff.1 hds
    rw [if_pos hkind]
    exact Option.bind_eq_some_iff.2 ⟨text, h _ _ htext, hds⟩
  · rename_i hkind
    rw [if_neg hkind]
    exact hds

end Outline

/-! ## Lookups that cannot fail -/

/-- Every text from one place to another is found. -/
def Found (a : String) (φ : P → Span) (p : P → Prop) : Prop :=
  ∀ x y, p x → p y → ∃ text, ((φ x).merge (φ y)).text? a = some text

theorem Found.single (h : Found a φ p) {x : P} (hx : p x) : ∃ text, (φ x).text? a = some text := by
  have := h x x hx hx
  rwa [Span.merge_self] at this

/-- On an addressable source everything between tokens of the source is found. -/
theorem found_span (ha : Addressable a) : Found a Stretch.span (·.LiesOn a.toList) := by
  intro x y hx hy
  rw [hx.merge_span hy ha]
  exact (hx.merge hy).exists_text? ha

theorem Signature.exists_rangeText? (h : Found a φ p) {range : Option (Extent P)}
    (hrange : ∀ e ∈ range, e.Forall p) :
    ∃ text, rangeText? a (range.map (Extent.map φ)) = some text := by
  rcases range with _ | range
  · exact ⟨_, rfl⟩
  · exact h _ _ (hrange range rfl).1 (hrange range rfl).2

theorem Signature.exists_consFindings? (h : Found a φ p) {xs : List (Finding P)}
    (hxs : ∀ x ∈ xs, x.Forall p) (s : Signature) :
    ∃ s', consFindings? a (xs.map (Finding.map φ)) s = some s' := by
  induction xs with
  | nil => exact ⟨s, rfl⟩
  | cons x xs ih =>
    obtain ⟨later, hlater⟩ := ih fun y hy => hxs y (List.mem_cons_of_mem _ hy)
    have hx := hxs x (List.mem_cons_self ..)
    obtain ⟨s', hs'⟩ : ∃ s', consFinding? a (x.map φ) later = some s' := by
      rcases x with ⟨name, value⟩ | ⟨d, name, range⟩ | r
      · obtain ⟨nameText, hnameText⟩ := h.single hx.1
        obtain ⟨valueText, hvalueText⟩ := h _ _ hx.2.1 hx.2.2
        exact ⟨_, Option.bind_eq_some_iff.2
          ⟨nameText, hnameText, Option.bind_eq_some_iff.2 ⟨valueText, hvalueText, rfl⟩⟩⟩
      · obtain ⟨nameText, hnameText⟩ := h.single hx.1
        obtain ⟨rangeText, hrangeText⟩ := exists_rangeText? h hx.2
        exact ⟨_, Option.bind_eq_some_iff.2
          ⟨nameText, hnameText, Option.bind_eq_some_iff.2 ⟨rangeText, hrangeText, rfl⟩⟩⟩
      · cases r with
        | noPorts direction keyword range =>
          obtain ⟨rangeText, hrangeText⟩ := exists_rangeText? h hx.2
          exact ⟨later, Option.bind_eq_some_iff.2 ⟨rangeText, hrangeText, rfl⟩⟩
        | _ => exact ⟨later, rfl⟩
    exact ⟨s', Option.bind_eq_some_iff.2 ⟨later, hlater, hs'⟩⟩

theorem Signature.exists_ofOutline? (h : Found a φ p) {o : Outline P} (ho : o.Forall p) :
    ∃ s, ofOutline? a (o.map φ) = some s := by
  obtain ⟨nameText, hnameText⟩ := h.single ho.1
  obtain ⟨s, hs⟩ := exists_consFindings? h ho.2 (ofName nameText)
  exact ⟨s, Option.bind_eq_some_iff.2 ⟨nameText, hnameText, hs⟩⟩

/-- The token that a remark is made on. -/
def Remark.token : Remark P → Lexeme P
  | .parameterWithoutName keyword | .noPorts _ keyword _ => keyword
  | .parameterWithoutValue name | .parameterWithEmptyValue name | .portDefault name => name

theorem Remark.token_map {Q : Type} (f : P → Q) (r : Remark P) :
    (r.map f).token = r.token.map f := by
  cases r <;> rfl

theorem Remark.Forall.token {r : Remark P} (h : r.Forall p) : p r.token.place := by
  cases r with
  | noPorts direction keyword range => exact h.1
  | _ => exact h

/-- The codes of what is remarked on in the body of a module. -/
def remarkCodes : List DiagnosticCode := [⟨.warning, 301⟩, ⟨.warning, 302⟩, ⟨.warning, 303⟩]

/-- A remark is reported as a warning, at its token. -/
theorem Remark.isWarning {r : Remark Span} {d : Diagnostic} (h : r.diagnostic? a = some d) :
    d.severity = .warning ∧ d.code ∈ remarkCodes ∧ d.span = r.token.span := by
  cases r with
  | parameterWithoutName keyword | noPorts direction keyword range =>
    obtain rfl := Option.some.inj h
    exact ⟨rfl, by simp [remarkCodes, Diagnostic.warning], rfl⟩
  | parameterWithoutValue name | parameterWithEmptyValue name | portDefault name =>
    obtain ⟨text, -, h⟩ := Option.bind_eq_some_iff.1 h
    obtain rfl := Option.some.inj h
    exact ⟨rfl, by simp [remarkCodes, Diagnostic.warning, Diagnostic.withNote], rfl⟩

theorem Remark.exists_diagnostic? (h : Found a φ p) {r : Remark P} (hr : r.Forall p) :
    ∃ d, (r.map φ).diagnostic? a = some d := by
  cases r with
  | parameterWithoutName keyword => exact ⟨_, rfl⟩
  | noPorts direction keyword range => exact ⟨_, rfl⟩
  | parameterWithoutValue name | parameterWithEmptyValue name | portDefault name =>
    obtain ⟨text, htext⟩ := h.single hr
    exact ⟨_, Option.bind_eq_some_iff.2 ⟨text, htext, rfl⟩⟩

namespace Outline

/-- The remarks among what an outline holds. -/
def remarks (o : Outline P) : List (Remark P) :=
  o.findings.filterMap fun
    | .remark r => some r
    | _ => none

theorem remarks_map (φ : P → Span) (o : Outline P) :
    (o.map φ).remarks = o.remarks.map (Remark.map φ) := by
  rw [remarks, remarks, Outline.map, List.filterMap_map, List.map_filterMap]
  congr 1
  funext x
  cases x <;> rfl

theorem forall_of_mem_remarks {o : Outline P} (ho : o.Forall p) {r : Remark P}
    (hr : r ∈ o.remarks) :
    r.Forall p := by
  obtain ⟨x, hx, hxr⟩ := List.mem_filterMap.1 hr
  have hforall := ho.2 x hx
  rcases x with _ | _ | r'
  · simp at hxr
  · simp at hxr
  · obtain rfl := Option.some.inj hxr
    exact hforall

theorem remarkDiagnostics?_eq (o : Outline Span) :
    o.remarkDiagnostics? a = o.remarks.mapM (Remark.diagnostic? a) := by
  rw [remarkDiagnostics?, remarks]
  congr 2
  funext x
  cases x <;> rfl

/-- The name of a module is reported at most once, as a warning. -/
theorem exists_onName {o : Outline Span} {ds : List Diagnostic}
    (h : o.nameDiagnostics? a = some ds) :
    ∃ onName, ds = Option.toList onName ∧
      ∀ d ∈ onName, d.severity = .warning ∧ d.code = ⟨.warning, 305⟩ ∧ d.span = o.name.span := by
  rw [nameDiagnostics?] at h
  split at h
  · obtain ⟨text, -, h⟩ := Option.bind_eq_some_iff.1 h
    obtain rfl := Option.some.inj h
    refine ⟨some _, rfl, ?_⟩
    rintro _ ⟨⟩
    exact ⟨rfl, rfl, rfl⟩
  · obtain rfl := Option.some.inj h
    exact ⟨none, rfl, by simp⟩

/-- What is said about the body of a module is said of its remarks. -/
theorem exists_remark {o : Outline Span} {ds : List Diagnostic}
    (h : o.remarkDiagnostics? a = some ds) {d : Diagnostic}
    (hd : d ∈ ds) : ∃ r ∈ o.remarks, r.diagnostic? a = some d := by
  rw [remarkDiagnostics?_eq] at h
  exact mem_of_mapM_eq_some h hd

theorem exists_remarkDiagnostics? (h : Found a φ p) {o : Outline P} (ho : o.Forall p) :
    ∃ ds, (o.map φ).remarkDiagnostics? a = some ds := by
  rw [remarkDiagnostics?_eq, remarks_map]
  refine exists_mapM_eq_some fun r hr => ?_
  obtain ⟨r', hr', rfl⟩ := List.mem_map.1 hr
  exact Remark.exists_diagnostic? h (forall_of_mem_remarks ho hr')

theorem exists_nameDiagnostics? (h : Found a φ p) {o : Outline P} (ho : o.Forall p) :
    ∃ ds, (o.map φ).nameDiagnostics? a = some ds := by
  obtain ⟨text, htext⟩ := h.single ho.1
  rw [nameDiagnostics?]
  split
  · exact ⟨_, Option.bind_eq_some_iff.2 ⟨text, htext, rfl⟩⟩
  · exact ⟨[], rfl⟩

end Outline

end VerilogScaffold
