import CallGrammar.Chain.Recorder
import CallGrammar.Proofs.Compiled

namespace CallGrammar

inductive Operation (Args : Type) where
  | call (name : String) (args : Args)
  | build
  | watch

def Event.moved? : Event → Option Term
  | .moved _ term _ => some term
  | _ => none

def Event.terms (events : List Event) : List Term := events.filterMap Event.moved?

theorem Dfa.nodup_edges (d : Dfa) (s : StateId) : ((d.edges s).map (·.1)).Nodup := by
  rw [Dfa.edges]
  cases d.get? s with
  | none => exact .nil
  | some state => exact state.nodup

namespace Chain

variable {Object Args Output : Type} {c : Chain Object Args Output} {name : String} {args : Args} {t : Term} {j : StateId}
  {e : DispatchError}

def perform (c : Chain Object Args Output) : Operation Args → Chain Object Args Output × List Event
  | .call name args => ((c.call name args).chain, (c.call name args).events)
  | .build => (c.build.chain, c.build.events)
  | .watch => (c, [c.resting])

def run (c : Chain Object Args Output) : List (Operation Args) → Chain Object Args Output × List Event
  | [] => (c, [])
  | op :: ops => (((c.perform op).1.run ops).1, (c.perform op).2 ++ ((c.perform op).1.run ops).2)

theorem mem_moves_iff : (t, j) ∈ c.moves ↔ ∃ id, (id, j) ∈ c.dfa.edges c.state ∧ c.terms.get? id = some t := by
  simp [moves]

theorem mem_expected_iff : name ∈ c.expected ↔ ∃ t j, (t, j) ∈ c.moves ∧ t.callable = name := by
  simp [expected]

def offered (c : Chain Object Args Output) : List Term := c.moves.map (·.1)

theorem offered_eq (c : Chain Object Args Output) :
    c.offered = ((c.dfa.edges c.state).map (·.1)).filterMap c.terms.get? := by
  rw [offered, moves, List.map_filterMap, List.filterMap_map]
  refine List.filterMap_congr fun edge _ => ?_
  cases h : c.terms.get? edge.1 <;> simp [h]

theorem nodup_offered (c : Chain Object Args Output) : c.offered.Nodup := by
  rw [offered_eq]
  exact (c.dfa.nodup_edges c.state).filterMap fun _ _ _ h h' => TermTable.eq_of_get?_eq h h'

theorem candidates_sublist (c : Chain Object Args Output) (name : String) : (c.candidates name).Sublist c.moves := by
  rw [candidates]
  split <;> exact List.filter_sublist

theorem notMem_moves_of_candidates_eq_nil (h : c.candidates name = []) (hmove : (t, j) ∈ c.moves) :
    t.callable ≠ name ∧ t.name ≠ name := by
  rw [candidates] at h
  split at h
  · rename_i hnone
    have hcallable := List.filter_eq_nil_iff.mp hnone (t, j) hmove
    have hname := List.filter_eq_nil_iff.mp h (t, j) hmove
    exact ⟨by simpa using hcallable, by simpa using hname⟩
  · rename_i hsome
    exact absurd h hsome

theorem mem_candidates (h : (t, j) ∈ c.candidates name) :
    (t, j) ∈ c.moves ∧ (t.callable = name ∨ t.name = name) := by
  rw [candidates] at h
  split at h
  · obtain ⟨hmove, hname⟩ := List.mem_filter.mp h
    exact ⟨hmove, .inr (by simpa using hname)⟩
  · obtain ⟨hmove, hname⟩ := List.mem_filter.mp h
    exact ⟨hmove, .inl (by simpa using hname)⟩

theorem mem_candidates_of_resolve (h : c.resolve name args = .ok (t, j)) : (t, j) ∈ c.candidates name := by
  rw [resolve] at h
  split at h
  · cases h
  · rename_i move hone
    rw [hone, ← Except.ok.inj h]
    exact List.mem_singleton_self _
  · split at h
    · rename_i move hsome
      obtain rfl := Except.ok.inj h
      obtain ⟨k, _, hk⟩ := Option.bind_eq_some_iff.mp hsome
      exact List.mem_of_getElem? hk
    · cases h

theorem resolve_error_cases (h : c.resolve name args = .error e) :
    e = .notAllowed name c.state c.expected ∧ c.candidates name = [] ∨
      e = .ambiguous name c.state ((c.candidates name).map (·.1)) ∧ 2 ≤ (c.candidates name).length := by
  rw [resolve] at h
  match hcandidates : c.candidates name with
  | [] =>
    rw [hcandidates] at h
    exact .inl ⟨(Except.error.inj h).symm, rfl⟩
  | [move] =>
    rw [hcandidates] at h
    cases h
  | move :: next :: rest =>
    simp only [hcandidates] at h
    split at h
    · cases h
    · exact .inr ⟨(Except.error.inj h).symm, by simp⟩

theorem call_cases (c : Chain Object Args Output) (name : String) (args : Args) :
    (∃ e, c.resolve name args = .error e ∧
      c.call name args = ⟨.error e, c, [.called c.state name, .rejected c.state name e]⟩) ∨
    (∃ t j message object, c.resolve name args = .ok (t, j) ∧ c.actions.apply t args c.object = (.error message, object) ∧
      c.call name args = ⟨.error (.failed name message), { c with object },
        [.called c.state name, .rejected c.state name (.failed name message)]⟩) ∨
    (∃ t j object, c.resolve name args = .ok (t, j) ∧ c.actions.apply t args c.object = (.ok (), object) ∧
      c.call name args = ⟨.ok (), { c with object, state := j },
        [.called c.state name, .moved c.state t j, { c with object, state := j }.resting]⟩) := by
  rw [call]
  cases hresolve : c.resolve name args with
  | error e => exact .inl ⟨e, rfl, rfl⟩
  | ok move =>
    obtain ⟨t, j⟩ := move
    rcases happly : c.actions.apply t args c.object with ⟨_ | _, object⟩
    · exact .inr (.inl ⟨t, j, _, object, rfl, happly, by simp only [happly]⟩)
    · exact .inr (.inr ⟨t, j, object, rfl, happly, by simp only [happly]⟩)

theorem build_cases (c : Chain Object Args Output) :
    (c.isFinal = true ∧ c.build = ⟨.ok (c.actions.build c.object).1, { c with object := (c.actions.build c.object).2 },
      [.built c.state true]⟩) ∨
    (c.isFinal = false ∧ c.build = ⟨.error (.premature c.state), c, [.built c.state false]⟩) := by
  rw [build]
  cases hfinal : c.isFinal with
  | true => exact .inl ⟨rfl, rfl⟩
  | false => exact .inr ⟨rfl, rfl⟩

theorem exists_perform_eq (c : Chain Object Args Output) (op : Operation Args) :
    ∃ object s, (c.perform op).1 = { c with object, state := s } ∧ (s = c.state ∨ ∃ t, (t, s) ∈ c.moves) := by
  cases op with
  | call name args =>
    rw [perform]
    rcases call_cases c name args with ⟨e, _, hcall⟩ | ⟨t, j, message, object, _, _, hcall⟩ |
      ⟨t, j, object, hresolve, _, hcall⟩ <;> rw [hcall]
    · exact ⟨c.object, c.state, rfl, .inl rfl⟩
    · exact ⟨object, c.state, rfl, .inl rfl⟩
    · exact ⟨object, j, rfl, .inr ⟨t, (mem_candidates (mem_candidates_of_resolve hresolve)).1⟩⟩
  | build =>
    rw [perform]
    rcases build_cases c with ⟨_, hbuild⟩ | ⟨_, hbuild⟩ <;> rw [hbuild]
    · exact ⟨_, c.state, rfl, .inl rfl⟩
    · exact ⟨c.object, c.state, rfl, .inl rfl⟩
  | watch => exact ⟨c.object, c.state, rfl, .inl rfl⟩

theorem dfa_perform (c : Chain Object Args Output) (op : Operation Args) : (c.perform op).1.dfa = c.dfa := by
  obtain ⟨_, _, hperform, _⟩ := c.exists_perform_eq op
  rw [hperform]

end Chain

open Chain

variable {Object Args Output : Type} {g : Grammar} {actions : Actions Object Args Output} {w : List Term}
  {c : Chain Object Args Output} {name : String} {args : Args} {t : Term} {j : StateId}

structure Follows (g : Grammar) (actions : Actions Object Args Output) (w : List Term) (c : Chain Object Args Output) :
    Prop where
  dfa_eq : c.dfa = g.dfa
  terms_eq : c.terms = g.terms
  actions_eq : c.actions = actions
  path : ∃ ids, g.terms.Spells ids w ∧ g.dfa.run ids = some c.state

namespace Follows

theorem start (g : Grammar) (actions : Actions Object Args Output) (object : Object) :
    Follows g actions [] (g.chain actions object) :=
  ⟨rfl, rfl, rfl, [], rfl, rfl⟩

theorem move {object : Object} (h : Follows g actions w c) (hmove : (t, j) ∈ c.moves) :
    Follows g actions (w ++ [t]) { c with object, state := j } := by
  obtain ⟨id, hedge, hid⟩ := mem_moves_iff.mp hmove
  rw [h.dfa_eq] at hedge
  rw [h.terms_eq] at hid
  obtain ⟨ids, hspells, hrun⟩ := h.path
  exact ⟨h.dfa_eq, h.terms_eq, h.actions_eq, ids ++ [id], hspells.concat hid, Dfa.run_concat hrun hedge⟩

theorem perform (h : Follows g actions w c) (op : Operation Args) :
    Follows g actions (w ++ Event.terms (c.perform op).2) (c.perform op).1 := by
  cases op with
  | call name args =>
    rcases call_cases c name args with ⟨e, _, hcall⟩ | ⟨t, j, message, object, _, _, hcall⟩ |
      ⟨t, j, object, hresolve, _, hcall⟩
    · simpa [Chain.perform, hcall, Event.terms, Event.moved?, List.filterMap_cons] using h
    · have hsame : Follows g actions w { c with object } := ⟨h.dfa_eq, h.terms_eq, h.actions_eq, h.path⟩
      simpa [Chain.perform, hcall, Event.terms, Event.moved?, List.filterMap_cons] using hsame
    · have hmoved : Follows g actions (w ++ [t]) { c with object, state := j } :=
        h.move (mem_candidates (mem_candidates_of_resolve hresolve)).1
      simpa [Chain.perform, hcall, Event.terms, Event.moved?, List.filterMap_cons, resting] using hmoved
  | build =>
    rcases build_cases c with ⟨_, hbuild⟩ | ⟨_, hbuild⟩
    · have hsame : Follows g actions w { c with object := (c.actions.build c.object).2 } :=
        ⟨h.dfa_eq, h.terms_eq, h.actions_eq, h.path⟩
      simpa [Chain.perform, hbuild, Event.terms, Event.moved?, List.filterMap_cons] using hsame
    · simpa [Chain.perform, hbuild, Event.terms, Event.moved?, List.filterMap_cons] using h
  | watch => simpa [Chain.perform, Event.terms, Event.moved?, List.filterMap_cons, resting] using h

theorem run (h : Follows g actions w c) (ops : List (Operation Args)) :
    Follows g actions (w ++ Event.terms (c.run ops).2) (c.run ops).1 := by
  induction ops generalizing w c with
  | nil => simpa [Chain.run, Event.terms] using h
  | cons op ops ih =>
    have hrest := ih (h.perform op)
    simpa [Chain.run, Event.terms] using hrest

end Follows

inductive Rejects (g : Grammar) (w : List Term) (c : Chain Object Args Output) (name : String) (args : Args) :
    DispatchError → Prop where
  | notAllowed : (∀ t, (∃ v, g.expr.Matches (w ++ t :: v)) → t.callable ≠ name ∧ t.name ≠ name) →
      Rejects g w c name args (.notAllowed name c.state c.expected)
  | ambiguous {ts : List Term} : 2 ≤ ts.length → ts.Nodup →
      (∀ t ∈ ts, (t.callable = name ∨ t.name = name) ∧ ∃ v, g.expr.Matches (w ++ t :: v)) →
      Rejects g w c name args (.ambiguous name c.state ts)
  | failed {t : Term} {message : String} {object : Object} :
      c.actions.apply t args c.object = (.error message, object) → t.callable = name ∨ t.name = name →
      (∃ v, g.expr.Matches (w ++ t :: v)) → Rejects g w c name args (.failed name message)

structure Faithful (g : Grammar) (actions : Actions Object Args Output) (w : List Term) (c : Chain Object Args Output) :
    Prop where
  path : ∃ ids, g.terms.Spells ids w ∧ g.dfa.run ids = some c.state
  builds_iff : (∃ output, c.build.result = .ok output) ↔ g.expr.Matches w
  premature : ¬ g.expr.Matches w → c.build.result = .error (.premature c.state)
  nodup_expected : c.expected.Nodup
  mem_expected_iff (name : String) : name ∈ c.expected ↔ ∃ t, t.callable = name ∧ ∃ v, g.expr.Matches (w ++ t :: v)
  call (name : String) (args : Args) :
    (∃ e, (c.call name args).result = .error e ∧ Event.terms (c.call name args).events = [] ∧
      Rejects g w c name args e) ∨
    (∃ t object, (c.call name args).result = .ok () ∧ Event.terms (c.call name args).events = [t] ∧
      actions.apply t args c.object = (.ok (), object) ∧ (c.call name args).chain.object = object ∧
      (t.callable = name ∨ t.name = name) ∧ ∃ v, g.expr.Matches (w ++ t :: v))
  succeeds {t : Term} {args : Args} {object : Object} : (∃ v, g.expr.Matches (w ++ t :: v)) →
    (∀ u, (∃ v, g.expr.Matches (w ++ u :: v)) → u.callable = t.callable ∨ u.name = t.callable → u = t) →
    actions.apply t args c.object = (.ok (), object) → (c.call t.callable args).result = .ok ()

theorem exists_move_iff (hg : g.Compiled) (h : Follows g actions w c) :
    (∃ j, (t, j) ∈ c.moves) ↔ ∃ v, g.expr.Matches (w ++ t :: v) := by
  obtain ⟨ids, hspells, hrun⟩ := h.path
  rw [← hg.exists_edge_iff hrun hspells]
  simp only [mem_moves_iff, h.dfa_eq, h.terms_eq]
  exact exists_comm

theorem isFinal_iff_matches (hg : g.Compiled) (h : Follows g actions w c) : c.isFinal = true ↔ g.expr.Matches w := by
  obtain ⟨ids, hspells, hrun⟩ := h.path
  rw [Chain.isFinal, h.dfa_eq]
  exact hg.isFinal_iff hrun hspells

theorem rejects_of_resolve_error (hg : g.Compiled) (h : Follows g actions w c) {e : DispatchError}
    (he : c.resolve name args = .error e) : Rejects g w c name args e := by
  rcases resolve_error_cases he with ⟨rfl, hnone⟩ | ⟨rfl, htwo⟩
  · refine .notAllowed fun t hv => ?_
    obtain ⟨j, hmove⟩ := (exists_move_iff hg h).mpr hv
    exact notMem_moves_of_candidates_eq_nil hnone hmove
  · refine .ambiguous (by simpa using htwo) (c.nodup_offered.sublist ((c.candidates_sublist name).map _)) fun t ht => ?_
    obtain ⟨⟨t, j⟩, hmem, rfl⟩ := List.mem_map.mp ht
    obtain ⟨hmove, hname⟩ := mem_candidates hmem
    exact ⟨hname, (exists_move_iff hg h).mp ⟨j, hmove⟩⟩

theorem call_cases_of_follows (hg : g.Compiled) (h : Follows g actions w c) (name : String) (args : Args) :
    (∃ e, (c.call name args).result = .error e ∧ Event.terms (c.call name args).events = [] ∧
      Rejects g w c name args e) ∨
    (∃ t object, (c.call name args).result = .ok () ∧ Event.terms (c.call name args).events = [t] ∧
      actions.apply t args c.object = (.ok (), object) ∧ (c.call name args).chain.object = object ∧
      (t.callable = name ∨ t.name = name) ∧ ∃ v, g.expr.Matches (w ++ t :: v)) := by
  rcases call_cases c name args with ⟨e, hresolve, hcall⟩ | ⟨t, j, message, object, hresolve, happly, hcall⟩ |
    ⟨t, j, object, hresolve, happly, hcall⟩ <;> rw [hcall]
  · exact .inl ⟨e, rfl, rfl, rejects_of_resolve_error hg h hresolve⟩
  · obtain ⟨hmove, hname⟩ := mem_candidates (mem_candidates_of_resolve hresolve)
    exact .inl ⟨_, rfl, rfl, .failed happly hname ((exists_move_iff hg h).mp ⟨j, hmove⟩)⟩
  · obtain ⟨hmove, hname⟩ := mem_candidates (mem_candidates_of_resolve hresolve)
    exact .inr ⟨t, object, rfl, rfl, h.actions_eq ▸ happly, rfl, hname, (exists_move_iff hg h).mp ⟨j, hmove⟩⟩

theorem not_rejects {e : DispatchError} {object : Object} (hv : ∃ v, g.expr.Matches (w ++ t :: v))
    (hunique : ∀ u, (∃ v, g.expr.Matches (w ++ u :: v)) → u.callable = t.callable ∨ u.name = t.callable → u = t)
    (happly : c.actions.apply t args c.object = (.ok (), object)) : ¬ Rejects g w c t.callable args e := by
  intro h
  cases h with
  | notAllowed hnone => exact (hnone t hv).1 rfl
  | ambiguous htwo hnodup hall =>
    have hsame : ∀ u ∈ _, u = t := fun u hu => hunique u (hall u hu).2 (hall u hu).1
    have hlength := (List.subperm_of_subset hnodup fun u hu => List.mem_singleton.mpr (hsame u hu)).length_le
    rw [List.length_singleton] at hlength
    omega
  | failed hfail hname hu =>
    rw [hunique _ hu hname, happly] at hfail
    cases hfail

theorem faithful_of_follows (hg : g.Compiled) (h : Follows g actions w c) : Faithful g actions w c where
  path := h.path
  builds_iff := by
    rw [← isFinal_iff_matches hg h]
    rcases build_cases c with ⟨hfinal, hbuild⟩ | ⟨hfinal, hbuild⟩
    · simp [hfinal, hbuild]
    · simp [hfinal, hbuild]
  premature := by
    rw [← isFinal_iff_matches hg h]
    intro hnot
    rcases build_cases c with ⟨hfinal, _⟩ | ⟨_, hbuild⟩
    · exact absurd hfinal hnot
    · rw [hbuild]
  nodup_expected := nodup_eraseDups _
  mem_expected_iff name := by
    rw [Chain.mem_expected_iff]
    constructor
    · rintro ⟨t, j, hmove, hname⟩
      exact ⟨t, hname, (exists_move_iff hg h).mp ⟨j, hmove⟩⟩
    · rintro ⟨t, hname, hv⟩
      obtain ⟨j, hmove⟩ := (exists_move_iff hg h).mpr hv
      exact ⟨t, j, hmove, hname⟩
  call := call_cases_of_follows hg h
  succeeds {t args object} hv hunique happly := by
    rcases call_cases_of_follows hg h t.callable args with ⟨e, _, _, hrejects⟩ | ⟨_, _, hresult, _⟩
    · exact absurd hrejects (not_rejects hv hunique (h.actions_eq ▸ happly))
    · exact hresult

theorem faithful_of_run {limits : Limits} {source : String} (h : Grammar.compile limits source = .ok g)
    (actions : Actions Object Args Output) (object : Object) (ops : List (Operation Args)) :
    Faithful g actions (Event.terms ((g.chain actions object).run ops).2) ((g.chain actions object).run ops).1 := by
  have hfollows := (Follows.start g actions object).run ops
  rw [List.nil_append] at hfollows
  exact faithful_of_follows (Grammar.compiled_of_compile h) hfollows

def visit : List (Operation (List String)) :=
  [.call "b" ["1"], .build, .call "z" [], .watch, .call "d" [], .build]

theorem faithful_of_visit : ∃ g, Grammar.compile ⟨1, 8⟩ "(a|b:c)+ d?" = .ok g ∧
    Faithful g recorder (Event.terms ((g.chain recorder []).run visit).2) ((g.chain recorder []).run visit).1 := by
  have hsome : (Grammar.compile ⟨1, 8⟩ "(a|b:c)+ d?").toOption.isSome = true := by decide +kernel
  cases hg : Grammar.compile ⟨1, 8⟩ "(a|b:c)+ d?" with
  | ok g => exact ⟨g, rfl, faithful_of_run hg recorder [] visit⟩
  | error e =>
    rw [hg] at hsome
    cases hsome

end CallGrammar
