import VerilogScaffold.Proofs.Name
import VerilogScaffold.Proofs.Finding

/-!
# Excerpts

A value or a range is copied from its source as it stands, with the comments, the directives and the
subprogram blocks inside it. Such an excerpt reaches from the start of one token to the end of
another, so it can be read on its own, and its tokens are those that the source has there
(`exists_excerpt`).

## Shape of the argument

The tokens of a run are neighbours after stripping. Where no block is left open, they come from
neighbouring tokens before it, which are stripped to the run (`Stripped.exists_run`), and those come
from neighbouring segments (`Segment.exists_run`). The segments are then cut off alone as they are
cut off the source.
-/

namespace VerilogScaffold

variable {P : Type}

/-! ## Runs of tokens before stripping -/

namespace Stripped

theorem keep_eq_mk_cons {t u : Lexeme P} {ts : List (Lexeme P)} {s : Stripped P} :
    keep t s = ⟨u :: ts, []⟩ ↔ t = u ∧ s = ⟨ts, []⟩ := by
  rcases s with ⟨tokens, unclosed⟩
  simp [keep, and_assoc]

/-- A token that stripping keeps stands between what comes to the tokens kept before it and what
comes to those kept after it. -/
theorem exists_kept_from {inside : Option Block} {ts before after : List (Lexeme P)} {t : Lexeme P}
    (h : ofTokensFrom inside ts = ⟨before ++ t :: after, []⟩) :
    ∃ ts₁ ts₂, ts = ts₁ ++ t :: ts₂ ∧ ofTokensFrom inside ts₁ = ⟨before, []⟩ ∧
      (∀ b, inside = some b → closes b ts₁ = true) ∧ ofTokens ts₂ = ⟨after, []⟩ ∧
      ∀ b, t.kind ≠ .keyword (.blockOpen b) := by
  fun_induction ofTokensFrom inside ts generalizing before with
  | case1 => simp at h
  | case2 b u ts ih =>
    obtain ⟨ts₁, ts₂, rfl, hbefore, hcloses, hafter⟩ := ih h
    refine ⟨u :: ts₁, ts₂, rfl, ?_, ?_, hafter⟩
    · rw [ofTokensFrom]
      exact hbefore
    · rintro b' ⟨⟩
      by_cases hu : u.kind = .keyword (.blockClose b)
      · simp [closes, hu]
      · have := hcloses b (if_neg hu)
        rw [closes, List.any_cons, ← closes, this, Bool.or_true]
  | case3 u ts b hkind hopens ih =>
    obtain ⟨ts₁, ts₂, rfl, hbefore, hcloses, hafter⟩ := ih h
    refine ⟨u :: ts₁, ts₂, rfl, ?_, by simp, hafter⟩
    rw [ofTokensFrom_cons_of_open hkind, if_pos (hcloses b rfl), hbefore]
  | case4 u ts b hkind hopens ih => cases congrArg unclosed h
  | case5 u ts hkind ih =>
    have hkept : ofTokensFrom none (u :: ts) = keep u (ofTokensFrom none ts) :=
      ofTokensFrom_cons_of_not_open hkind ts
    rcases before with _ | ⟨v, before⟩
    · obtain ⟨rfl, hrest⟩ := keep_eq_mk_cons.1 h
      exact ⟨[], ts, rfl, rfl, by simp, hrest, hkind⟩
    · obtain ⟨rfl, hrest⟩ := keep_eq_mk_cons.1 h
      obtain ⟨ts₁, ts₂, rfl, hbefore, hcloses, hafter⟩ := ih hrest
      refine ⟨u :: ts₁, ts₂, rfl, ?_, by simp, hafter⟩
      rw [ofTokensFrom_cons_of_not_open hkind, hbefore]
      rfl

/-- Tokens that are stripped to a part and what follows it fall into what is stripped to the part,
which ends with the part's last token, and what is stripped to the rest. -/
theorem exists_prefix {ts part after : List (Lexeme P)} (h : ofTokens ts = ⟨part ++ after, []⟩) :
    ∃ ts₁ ts₂, ts = ts₁ ++ ts₂ ∧ ofTokens ts₁ = ⟨part, []⟩ ∧ ofTokens ts₂ = ⟨after, []⟩ ∧
      ts₁.getLast? = part.getLast? := by
  induction part generalizing ts with
  | nil => exact ⟨[], ts, rfl, rfl, h, rfl⟩
  | cons t part ih =>
    have hcons : ofTokens ts = ⟨[] ++ t :: (part ++ after), []⟩ := h
    obtain ⟨front, rest, rfl, hfront, -, hrest, hopen⟩ := exists_kept_from hcons
    obtain ⟨ts₁, ts₂, rfl, hpart, hafter, hlast⟩ := ih hrest
    refine ⟨front ++ t :: ts₁, ts₂, by rw [List.append_assoc, List.cons_append], ?_, hafter, ?_⟩
    · have hfront' : ofTokens front = ⟨[], []⟩ := hfront
      rw [ofTokens_append (by simp [hfront']), hfront', ofTokens,
        ofTokensFrom_cons_of_not_open hopen, ← ofTokens, hpart]
      rfl
    · rw [List.getLast?_append, List.getLast?_cons, List.getLast?_cons, hlast]
      rfl

/-- A run of tokens that stripping leaves comes from a run of tokens with the same ends. -/
theorem exists_run {ts before run after : List (Lexeme P)} {t : Lexeme P}
    (h : ofTokens ts = ⟨before ++ t :: (run ++ after), []⟩) :
    ∃ ts₁ ts₂ ts₃, ts = ts₁ ++ t :: (ts₂ ++ ts₃) ∧ ofTokens (t :: ts₂) = ⟨t :: run, []⟩ ∧
      ts₂.getLast? = run.getLast? := by
  obtain ⟨ts₁, rest, rfl, -, -, hrest, hopen⟩ := exists_kept_from h
  obtain ⟨ts₂, ts₃, rfl, hrun, -, hlast⟩ := exists_prefix hrest
  refine ⟨ts₁, ts₂, ts₃, rfl, ?_, hlast⟩
  rw [ofTokens, ofTokensFrom_cons_of_not_open hopen, ← ofTokens, hrun]
  rfl

end Stripped

/-! ## Runs of tokens among segments -/

namespace Segment

variable {behind : List Char} {segments : List Segment}

/-- Whether the last of some tokens is the last of some segments, in front of `behind`. -/
def EndsWith (behind : List Char) (segments : List Segment) (ts : List (Lexeme Site)) : Prop :=
  ∀ t ∈ ts.getLast?, ∃ s ∈ segments.getLast?,
    s.kind.tokenKind? = some t.kind ∧ t.place = ⟨s.text ++ behind, behind⟩

/-- Segments whose tokens are a part and what follows it fall into those of the part, which end with
the part's last token, and those of the rest. -/
theorem exists_prefix {part after : List (Lexeme Site)}
    (h : lexemes behind segments = part ++ after) :
    ∃ segments₁ segments₂, segments = segments₁ ++ segments₂ ∧ (part = [] → segments₁ = []) ∧
      lexemes (segments₂.flatMap text ++ behind) segments₁ = part ∧
      EndsWith (segments₂.flatMap text ++ behind) segments₁ part := by
  induction part generalizing segments with
  | nil => exact ⟨[], segments, rfl, fun _ => rfl, rfl, by simp [EndsWith]⟩
  | cons t part ih =>
    have hcons : lexemes behind segments = [] ++ t :: (part ++ after) := h
    obtain ⟨front, s, rest, rfl, hs, hplace, hfront, hrest⟩ := exists_of_lexemes_eq hcons
    obtain ⟨segments₁, segments₂, rfl, hnil, hpart, hends⟩ := ih hrest
    rw [List.flatMap_append, List.append_assoc] at hplace hfront
    refine ⟨front ++ s :: segments₁, segments₂, by rw [List.append_assoc, List.cons_append],
      fun h => (nomatch h), ?_, ?_⟩
    · rw [lexemes_append, lexemes, hs, hpart, List.flatMap_cons, List.append_assoc,
        hfront, ← hplace]
      rfl
    · intro u hu
      rw [List.getLast?_append, List.getLast?_cons]
      rw [List.getLast?_cons] at hu
      rcases hlast : part.getLast? with _ | v
      · obtain rfl := List.getLast?_eq_none_iff.1 hlast
        obtain rfl := hnil rfl
        obtain rfl : t = u := by simpa using hu
        exact ⟨s, by simp, hs, hplace⟩
      · obtain ⟨w, hw, hv⟩ := hends v hlast
        obtain rfl : v = u := by simpa [hlast] using hu
        exact ⟨w, by simp [Option.mem_def.1 hw], hv⟩

/-- A run of tokens of segments is that of a run of segments with the same ends. -/
theorem exists_run_of_lexemes_eq {before run after : List (Lexeme Site)} {t : Lexeme Site}
    (h : lexemes behind segments = before ++ t :: (run ++ after)) :
    ∃ segments₁ segments₂ segments₃, segments = segments₁ ++ (segments₂ ++ segments₃) ∧
      lexemes (segments₃.flatMap text ++ behind) segments₂ = t :: run ∧
      t.place.here = segments₂.flatMap text ++ (segments₃.flatMap text ++ behind) ∧
      EndsWith (segments₃.flatMap text ++ behind) segments₂ (t :: run) := by
  obtain ⟨segments₁, s, rest, rfl, hs, hplace, -, hrest⟩ := exists_of_lexemes_eq h
  have htokens : lexemes behind (s :: rest) = t :: run ++ after := by
    rw [lexemes, hs, hrest, ← hplace]
    rfl
  obtain ⟨segments₂, segments₃, hcut, -, hrun, hends⟩ := exists_prefix htokens
  refine ⟨segments₁, segments₂, segments₃, by rw [hcut], hrun, ?_, hends⟩
  rw [hplace, ← List.append_assoc, ← List.append_assoc, ← List.flatMap_cons, hcut,
    List.flatMap_append]

end Segment

/-! ## Excerpts -/

/-- What is left of a text without its subprogram blocks. None of them is left open, and nothing in
the text is malformed. -/
structure Keeps (text : List Char) (ts : List (Lexeme Site)) : Prop where
  faultless : ∀ s ∈ Segment.split text, s.kind.isFault = false
  read : Stripped.read text = ⟨ts, []⟩

/-- A text that reads as a run of tokens from its first character to its last. -/
structure Excerpt (text : List Char) (run : List (Lexeme Site)) : Prop extends Keeps text run where
  extent : ∃ e, Outline.extent? run = some e ∧ e.first.place.here = text ∧ e.last.place.after = []
  ends : Segment.EndsWith [] (Segment.split text) run

theorem Site.append_eq_iff {p : Site} {cs after F : List Char} :
    p.append F = ⟨cs ++ F, after ++ F⟩ ↔ p = ⟨cs, after⟩ := by
  rcases p with ⟨here, after'⟩
  simp [Site.append]

/-- From a token at the start of some segments to one at their end there is the text of the
segments. -/
theorem Extent.text_of_segments {segments : List Segment} {F : List Char} {first last : Lexeme Site}
    (hfirst : first ∈ Segment.lexemes F segments) (hlast : last ∈ Segment.lexemes F segments)
    (hhere : first.place.here = segments.flatMap Segment.text ++ F)
    (hafter : last.place.after = F) :
    Extent.text ⟨first, last⟩ = segments.flatMap Segment.text := by
  have hwithin : last.place.here <:+ first.place.here := by
    rw [hhere]
    exact (Segment.liesOn_of_mem_lexemes hlast).here
  have hbehind : last.place.after <:+ first.place.after := by
    rw [hafter]
    exact Segment.suffix_after_of_mem_lexemes hfirst
  rw [Extent.text, Site.merge_eq hwithin hbehind, hhere, hafter, Site.text_mk_append]

/-- **Values and ranges are excerpts.** A run of tokens that a source has after stripping is read
the same way in the text that the source has from its first token to its last, and that text has no
other kinds of token than the source has there. -/
theorem exists_excerpt {cs : List Char} (hcs : ∀ s ∈ Segment.split cs, s.kind.isFault = false)
    {before run after : List (Lexeme Site)}
    (h : Stripped.read cs = ⟨before ++ (run ++ after), []⟩) {e : Extent Site}
    (he : Outline.extent? run = some e) :
    ∃ run' F, Excerpt e.text run' ∧ run = run'.map (Lexeme.map (Site.append F)) ∧
      (lexemes e.text).map Lexeme.kind <:+: (lexemes cs).map Lexeme.kind := by
  obtain ⟨t, run, rfl⟩ : ∃ t ts, run = t :: ts := by
    rcases run with _ | ⟨t, ts⟩
    · cases he
    · exact ⟨t, ts, rfl⟩
  obtain ⟨ts₁, ts₂, ts₃, hlexemes, hstripped, hlast⟩ := Stripped.exists_run h
  obtain ⟨segments₁, segments₂, segments₃, hsplit, hrun, hhere, hends⟩ :=
    Segment.exists_run_of_lexemes_eq hlexemes
  rw [List.append_nil] at hrun hhere hends
  generalize hF : segments₃.flatMap Segment.text = F at hrun hhere hends
  have hfit : Segment.Fit F segments₂ := by
    have := Segment.fit_split cs
    rw [hsplit, Segment.fit_append, Segment.fit_append, hF] at this
    simpa using this.2.1
  -- the segments of the run are cut off alone as they are cut off the source
  have hwhole : Segment.split (segments₂.flatMap Segment.text) = segments₂ :=
    hfit.split_flatMap_text
  have hmap : t :: ts₂ =
      (lexemes (segments₂.flatMap Segment.text)).map (Lexeme.map (Site.append F)) := by
    rw [lexemes, hwhole, ← Segment.lexemes_append_behind, List.nil_append, hrun]
  have hread : (Stripped.read (segments₂.flatMap Segment.text)).map (Site.append F) =
      ⟨t :: run, []⟩ := by
    rw [Stripped.read, ← Stripped.ofTokens_map, ← hmap, hstripped]
  -- the run reaches from the start of its text to the end
  have hsame : (t :: ts₂).getLast? = (t :: run).getLast? := by
    rw [List.getLast?_cons, List.getLast?_cons, hlast]
  obtain ⟨s, hs, hkind, hplace⟩ := hends (run.getLastD t) (by
    rw [hsame, List.getLast?_cons, List.getLastD_eq_getLast?]
    rfl)
  obtain rfl := Option.some.inj he
  have htext : Extent.text ⟨t, run.getLastD t⟩ = segments₂.flatMap Segment.text := by
    refine Extent.text_of_segments ?_ ?_ hhere (by rw [hplace])
    · rw [hrun]
      exact List.mem_cons_self ..
    · rw [hrun]
      refine List.mem_of_getLast? ?_
      rw [hsame, List.getLast?_cons, List.getLastD_eq_getLast?]
  rw [htext]
  rcases hstrip : Stripped.read (segments₂.flatMap Segment.text) with ⟨run', unclosed⟩
  rw [hstrip] at hread
  obtain ⟨hrun', hunclosed⟩ := Stripped.mk.inj hread
  obtain rfl := List.map_eq_nil_iff.1 hunclosed
  have hinfix : (lexemes (segments₂.flatMap Segment.text)).map Lexeme.kind <:+:
      (lexemes cs).map Lexeme.kind := by
    have hkinds := congrArg (List.map Lexeme.kind) hmap
    rw [List.map_map] at hkinds
    refine ⟨ts₁.map Lexeme.kind, ts₃.map Lexeme.kind, ?_⟩
    rw [hlexemes, List.map_append, ← List.cons_append, List.map_append, hkinds, ← List.append_assoc]
    rfl
  refine ⟨run', F, ⟨⟨fun s hs => ?_, hstrip⟩, ?_, ?_⟩, hrun'.symm, hinfix⟩
  · rw [hwhole] at hs
    exact hcs s (hsplit ▸ List.mem_append_right _ (List.mem_append_left _ hs))
  all_goals
    obtain ⟨t', run', rfl, ht', hrest⟩ := List.map_eq_cons_iff.1 hrun'
    have hlast' : (run'.getLastD t').map (Site.append F) = run.getLastD t := by
      rw [List.getLastD_eq_getLast?, List.getLastD_eq_getLast?, ← hrest, ← ht', List.getLast?_map]
      cases run'.getLast? <;> rfl
    rw [← hlast'] at hplace hkind
  · refine ⟨⟨t', run'.getLastD t'⟩, rfl, ?_, ?_⟩
    · rw [← ht'] at hhere
      exact List.append_cancel_right hhere
    · simpa [Lexeme.map, Site.append] using congrArg Site.after hplace
  · intro u hu
    obtain rfl : run'.getLastD t' = u := by
      rw [List.getLast?_cons] at hu
      rw [List.getLastD_eq_getLast?]
      exact Option.some.inj hu
    refine ⟨s, by rwa [hwhole], hkind, ?_⟩
    rw [List.append_nil]
    exact Site.append_eq_iff.1 hplace

/-! ## Names of a signature -/

/-- A signature all of whose names are names of a text. -/
structure Signature.Named (cs : List Char) (s : Signature) : Prop where
  name : NamedIn cs s.name
  parameters : ∀ p ∈ s.parameters, NamedIn cs p.name
  ports : ∀ d, ∀ p ∈ s.ports d, NamedIn cs p.name

theorem Signature.named_ofSites {cs : List Char} {o : Outline Site} (ho : Outline.read cs = .ok o) :
    (ofSites o).Named cs := by
  obtain ⟨⟨hname, hmem⟩, before, body, after, hbody, -, hfindings⟩ := Outline.exists_body_of_ok ho
  have hkept : ∀ t ∈ (Stripped.read cs).tokens, t.kind.isIdentifier = true →
      NamedIn cs (String.ofList t.place.text) := fun t ht hkind =>
    ⟨t, (Stripped.tokens_sublist _).subset ht, hkind, String.toList_ofList.symm⟩
  have hinner : ∀ t ∈ body, t ∈ (Stripped.read cs).tokens := by
    intro t ht
    rw [hbody]
    exact List.mem_append_right _ (List.mem_append_left _ ht)
  refine ⟨hkept o.name hmem hname, ?_, ?_⟩
  · intro p hp
    obtain ⟨n, value, hfound, rfl⟩ := exists_of_mem_parameters hp
    obtain ⟨hkind, hmem, -⟩ := hfindings _ hfound
    exact hkept n (hinner n hmem) hkind
  · intro d p hp
    obtain ⟨n, range, hfound, rfl⟩ := exists_of_mem_ports hp
    obtain ⟨hkind, hmem, -⟩ := hfindings _ hfound
    exact hkept n (hinner n hmem) hkind

/-- Extraction finds names only. -/
theorem Extraction.named {source : String} (ha : Addressable source) {x : Extraction}
    (hx : ofSource? source = some x) {s : Signature} (hs : x.result = .ok s) :
    s.Named source.toList := by
  obtain ⟨o, ho, rfl⟩ := exists_read_of_result ha hx hs
  exact Signature.named_ofSites ho

end VerilogScaffold
