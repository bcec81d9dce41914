import TemplateCheck.Proofs.Parser.Accounting

/-!
# The errors of a run that fails

* `reported c`             the tokens that were refused
* `History.exists_found`   every error is about a token
* `Tally.dealt_eq`         the tokens dealt with, numbered by the calls that gave them
* `Accounted.exists_token` before another token is refused, each that was refused had bytes
* `Accounted.orderly`      so a token stands behind all that were refused before it
* `errors_shape`           errors come in the order of the text, and the premature end comes last

Behind the last byte all tokens stand at one place.  A machine that has refused one of them is done,
so this place is in the list once at most.
-/

namespace TemplateCheck.Parser

variable {K : Type} [TokenKind K]

namespace Config

omit [TokenKind K] in
/-- the tokens that were refused, in order -/
def reported (c : Config K) : List (Token K) :=
  c.refusals.filterMap ParseError.found?

variable [DecidableEq K] {g : Grammar K} {l : Lexer K} {bs : List UInt8} {ts : List (Token K)}
  {t : Token K} {c : Config K}

theorem History.exists_found (h : History g l ts c) : ∀ e ∈ c.refusals, ∃ t, e.found? = some t := by
  induction h with
  | start => exact fun e he => absurd he List.not_mem_nil
  | expand _ _ hround ih =>
    rw [hround.refusals]
    exact ih
  | deal _ _ hround ih =>
    cases hround with
    | meets _ _ _ refusals =>
      rw [refusals]
      exact ih
    | refuses found _ _ refusals =>
      rw [refusals]
      intro e he
      rcases List.mem_append.mp he with he | he
      · exact ih e he
      · exact ⟨_, List.mem_singleton.mp he ▸ found⟩

theorem History.mem_of_reported (h : History g l ts c) (ht : t ∈ c.reported) : t ∈ ts :=
  h.perm.subset (List.mem_append_right _ ht)

omit [DecidableEq K] in
theorem Tally.exists_take (h : Tally l ts c) :
    ∃ n, ts.length ≤ n ∧ c.pulled = (List.range n).map l.token := by
  obtain ⟨n, htaken, -⟩ := h.taken
  rw [Lexer.take_fst] at htaken
  have hlength := congrArg List.length (h.pulled.symm.trans htaken)
  rw [List.length_append, List.length_map, List.length_range] at hlength
  exact ⟨n, by omega, htaken⟩

omit [DecidableEq K] in
theorem Tally.dealt_eq (h : Tally l ts c) : ts = (List.range ts.length).map l.token := by
  obtain ⟨n, hle, htaken⟩ := h.exists_take
  rw [h.pulled] at htaken
  have htake := congrArg (List.take ts.length) htaken
  rw [List.take_left, ← List.map_take, List.take_range, Nat.min_eq_left hle] at htake
  exact htake

omit [DecidableEq K] in
/-- the token that a round is about is the first one that was not dealt with -/
theorem Tally.token_eq (h : Tally l ts c) : c.fetch.1 = l.token ts.length := by
  have hall := h.fetch.dealt_eq
  rw [List.length_append, List.length_singleton, List.range_succ, List.map_append,
    ← h.dealt_eq, List.map_singleton] at hall
  exact List.singleton_inj.mp (List.append_cancel_left hall)

/-- **A refused token without bytes is the end.**  As long as the machine goes on, each token that
was refused has bytes. -/
theorem Accounted.exists_token (h : Accounted g l ts c) (hl : l.Reads bs) (hdone : c.done = false)
    (ht : t ∈ c.reported) : ∃ i < ts.length, t = l.token i ∧ l.boundary i < bs.length := by
  have hmem := h.history.mem_of_reported ht
  rw [h.tally.dealt_eq] at hmem
  obtain ⟨i, hi, rfl⟩ := List.mem_map.mp hmem
  rw [List.mem_range] at hi
  refine ⟨i, hi, rfl, Nat.lt_of_le_of_ne (hl.boundary_le i) fun hend => ?_⟩
  -- otherwise the token taken last is a closing one, and the machine is done
  have hlast : c.lastKind = some TokenKind.endOfInput := by
    obtain ⟨n, hle, htaken⟩ := h.tally.exists_take
    rw [h.tally.lastKind, htaken, ← Lexer.take_fst]
    exact hl.kind_getLast_take hend (Nat.lt_of_lt_of_le hi hle)
  have hfailed : c.failed = true := by
    obtain ⟨e, he, -⟩ := List.mem_filterMap.mp ht
    rw [h.tally.failed, List.isEmpty_eq_false_iff.mpr (List.ne_nil_of_mem he)]
    rfl
  rw [Config.done, hlast, hfailed, decide_eq_true rfl, Bool.and_true, Bool.or_true] at hdone
  cases hdone

/-- The refused tokens stand one behind the other. -/
def Orderly (c : Config K) : Prop :=
  c.reported.Pairwise fun t t' => toLex (t.line, t.column) < toLex (t'.line, t'.column)

/-- **Orderly errors.**  A token that is refused stands behind those refused before it. -/
theorem Accounted.orderly (h : Accounted g l ts c) (hl : l.Reads bs) (hdone : c.done = false)
    (horderly : c.Orderly) (hround : Deals c.fetch.1 c (c.round g)) : (c.round g).Orderly := by
  cases hround with
  | meets _ _ _ refusals =>
    rw [Orderly, reported, refusals]
    exact horderly
  | refuses found _ _ refusals =>
    rw [Orderly, reported, refusals, List.filterMap_append, List.filterMap_cons_some found,
      List.filterMap_nil]
    refine List.pairwise_append.mpr ⟨horderly, List.pairwise_singleton _ _, fun t ht t' ht' => ?_⟩
    obtain ⟨i, hi, rfl, hbytes⟩ := h.exists_token hl hdone ht
    rw [List.mem_singleton.mp ht', h.tally.token_eq]
    exact hl.place_token_lt hi hbytes

theorem orderly_final (g : Grammar K) (hl : l.Reads bs) :
    ∃ ts, Accounted g l ts (final g l) ∧ (final g l).Orderly := by
  refine run_induction (motive := fun c => ∃ ts, Accounted g l ts c ∧ c.Orderly)
    ⟨[], .start g l, List.Pairwise.nil⟩ ?_ _
  intro c h hdone
  obtain ⟨ts, h, horderly⟩ := h
  rcases h.round hdone with ⟨h', hround⟩ | ⟨h', hround⟩
  · refine ⟨ts, h', ?_⟩
    rw [Orderly, reported, hround.refusals]
    exact horderly
  · exact ⟨_, h', h.orderly hl hdone horderly hround⟩

/-! ## results -/

omit [TokenKind K] [DecidableEq K] in
theorem map_reported (c : Config K) :
    c.reported.map (fun t => (t.line, t.column)) = c.refusals.filterMap ParseError.location? := by
  rw [reported, List.map_filterMap]
  rfl

theorem errors_of_verdict_error {es : List (ParseError K)} (h : c.verdict = .error es) :
    c.errors = es ∧ es ≠ [] := by
  unfold verdict at h
  split at h
  · cases h
  · next hne =>
    obtain rfl := Except.error.inj h
    exact ⟨rfl, fun hnil => hne (List.isEmpty_iff.mpr hnil)⟩

/-- Something was refused, if anything is left on the stack in the end. -/
theorem Tally.exists_errors (h : Tally l ts c) (hdone : c.done = true) (hne : c.errors ≠ []) :
    c.refusals ≠ [] ∧ ∃ tail, c.errors = c.refusals ++ tail ∧ (tail = [] ∨ tail = [.prematureEnd]) := by
  cases hempty : c.stack.isEmpty with
  | true =>
    rw [errors, if_pos hempty] at hne ⊢
    exact ⟨hne, [], (List.append_nil _).symm, Or.inl rfl⟩
  | false =>
    rw [Config.done, hempty, Bool.false_or, Bool.and_eq_true, h.failed, Bool.not_eq_true',
      List.isEmpty_eq_false_iff] at hdone
    refine ⟨hdone.1, [.prematureEnd], ?_, Or.inr rfl⟩
    rw [errors, hempty]
    rfl

end Config

open Config

/-- **The errors of a failed parse.**  There is one at least, and the first one is about a token.  The
premature end comes last or not at all; every other error stands where its token begins, and these
places come in the order of the text, no two of them the same. -/
theorem errors_shape [DecidableEq K] {g : Grammar K} {a : Automaton K} {source : String}
    {es : List (ParseError K)} (h : parse? g (.ofText a source) = some (.error es)) :
    es ≠ [] ∧ es.head? ≠ some .prematureEnd ∧ .prematureEnd ∉ es.dropLast ∧
      (∀ e ∈ es, e ≠ .prematureEnd → ∃ t, (e = .noProduction t ∨ ∃ k, e = .unexpected t k) ∧
        e.location? = some (t.line, t.column)) ∧
      (es.filterMap ParseError.location?).Pairwise fun p q => toLex p < toLex q := by
  obtain ⟨hdone, hverdict⟩ := parse?_eq_some_iff.mp h
  obtain ⟨rfl, hne⟩ := errors_of_verdict_error hverdict
  obtain ⟨ts, haccounted, horderly⟩ := orderly_final g (Lexer.reads_ofText a source)
  obtain ⟨hrefused, tail, herrors, htail⟩ := haccounted.tally.exists_errors hdone hne
  have hnot : .prematureEnd ∉ (final g (.ofText a source)).refusals := by
    intro hmem
    obtain ⟨t, ht⟩ := haccounted.history.exists_found _ hmem
    cases ht
  rw [herrors]
  refine ⟨List.append_ne_nil_of_left_ne_nil hrefused tail, ?_, ?_, fun e _ he => ?_, ?_⟩
  · obtain ⟨e, es, hcons⟩ := List.exists_cons_of_ne_nil hrefused
    rw [hcons, List.cons_append, List.head?_cons]
    intro hhead
    refine hnot ?_
    rw [hcons, Option.some.inj hhead]
    exact List.mem_cons_self
  · rcases htail with rfl | rfl
    · rw [List.append_nil]
      exact fun hmem => hnot (List.dropLast_subset _ hmem)
    · rw [List.dropLast_concat]
      exact hnot
  · rcases e.about with ⟨t, ht, hlocation, -⟩ | ⟨hend, -⟩
    · exact ⟨t, ht, hlocation⟩
    · exact absurd hend he
  · have hlocations : tail.filterMap ParseError.location? = [] := by
      rcases htail with rfl | rfl <;> rfl
    rw [List.filterMap_append, hlocations, List.append_nil, ← map_reported]
    exact List.pairwise_map.mpr horderly

open Template in
/-- Errors of both sorts on two lines, and the end of the input behind them. -/
theorem errors_shape_lines :
    let es : List (ParseError Kind) := [.noProduction ⟨.unrecognized, "\\@ \n", 1, 1⟩,
      .unexpected ⟨.closeKey, "\\@\x7d", 2, 1⟩ .endOfInput,
      .unexpected ⟨.content, "x", 2, 4⟩ .endOfInput, .prematureEnd]
    parse? grammar (.ofText automaton "\\@ \n\\@\x7dx") = some (.error es) ∧
      es ≠ [] ∧ es.head? ≠ some .prematureEnd ∧ .prematureEnd ∉ es.dropLast ∧
      (∀ e ∈ es, e ≠ .prematureEnd → ∃ t, (e = .noProduction t ∨ ∃ k, e = .unexpected t k) ∧
        e.location? = some (t.line, t.column)) ∧
      (es.filterMap ParseError.location?).Pairwise fun p q => toLex p < toLex q := by
  intro es
  have hparse : parse? grammar (.ofText automaton "\\@ \n\\@\x7dx") = some (.error es) := by rfl
  exact ⟨hparse, errors_shape hparse⟩

end TemplateCheck.Parser
