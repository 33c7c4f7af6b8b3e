import CallGrammar.Proofs.Liveness
import CallGrammar.Proofs.Refusal

namespace CallGrammar

variable {Object Args Output : Type}

def Actions.NeverChoose (a : Actions Object Args Output) : Prop :=
  ∀ name candidates args object, a.select name candidates args object = none

theorem neverChoose_recorder : recorder.NeverChoose := fun _ _ _ _ => rfl

namespace Chain

def choosing (c : Chain Object Args Output) (select : String → List Term → Args → Object → Option Nat) :
    Chain Object Args Output :=
  { c with actions := { c.actions with select } }

def Consults (c : Chain Object Args Output) (name : String) (args : Args) : Prop :=
  ∃ select select', (c.choosing select).resolve name args ≠ (c.choosing select').resolve name args

def Chooses (c : Chain Object Args Output) (name : String) (args : Args) (k : Nat) : Prop :=
  c.actions.select name ((c.candidates name).map (·.1)) args c.object = some k

variable {c : Chain Object Args Output} {name : String} {args : Args} {t : Term} {i j : StateId} {e : DispatchError}

theorem eq_of_mem_moves (h : (t, i) ∈ c.moves) (h' : (t, j) ∈ c.moves) : i = j :=
  (Prod.mk.inj (List.inj_on_of_nodup_map c.nodup_offered h h' rfl)).2

theorem mem_expected_iff_offered : name ∈ c.expected ↔ ∃ u ∈ c.offered, u.callable = name := by
  rw [expected, List.mem_eraseDups, offered, ← List.mem_map, List.map_map]
  rfl

theorem notMem_expected_iff : name ∉ c.expected ↔ ∀ u ∈ c.offered, u.callable ≠ name := by
  rw [mem_expected_iff_offered]
  simp only [not_exists, not_and, ne_eq]

section

variable (p : Term → Prop) [DecidablePred p]

theorem filter_moves_eq_nil_iff : c.moves.filter (p ·.1) = [] ↔ ∀ u ∈ c.offered, ¬ p u := by
  rw [List.filter_eq_nil_iff, offered, List.forall_mem_map]
  simp only [decide_eq_true_iff]

theorem filter_moves_eq_singleton_iff : c.moves.filter (p ·.1) = [(t, j)] ↔
    (t, j) ∈ c.moves ∧ p t ∧ ∀ u ∈ c.offered, p u → u = t := by
  constructor
  · intro hone
    have hmem : (t, j) ∈ c.moves.filter (p ·.1) := hone ▸ List.mem_singleton_self (t, j)
    obtain ⟨hmove, ht⟩ := List.mem_filter.mp hmem
    refine ⟨hmove, of_decide_eq_true ht, fun u hu hpu => ?_⟩
    obtain ⟨move, hmove, rfl⟩ := List.mem_map.mp hu
    have hpassed : move ∈ c.moves.filter (p ·.1) := List.mem_filter.mpr ⟨hmove, decide_eq_true hpu⟩
    rw [hone, List.mem_singleton] at hpassed
    rw [hpassed]
  · rintro ⟨hmove, ht, hunique⟩
    have hnodup : (c.moves.filter (p ·.1)).Nodup := c.nodup_offered.of_map.filter _
    refine List.perm_singleton.mp ((List.perm_ext_iff_of_nodup hnodup (List.nodup_singleton (t, j))).mpr fun move => ?_)
    rw [List.mem_filter, List.mem_singleton]
    constructor
    · rintro ⟨hmem, hpassed⟩
      have hterm : move.1 = t := hunique move.1 (List.mem_map_of_mem hmem) (of_decide_eq_true hpassed)
      exact List.inj_on_of_nodup_map c.nodup_offered hmem hmove hterm
    · rintro rfl
      exact ⟨hmove, decide_eq_true ht⟩

end

theorem candidates_eq (c : Chain Object Args Output) (name : String) : c.candidates name =
    if name ∈ c.expected then c.moves.filter (·.1.callable = name) else c.moves.filter (·.1.name = name) := by
  have hnone : c.moves.filter (·.1.callable = name) = [] ↔ name ∉ c.expected := by
    rw [filter_moves_eq_nil_iff (·.callable = name), notMem_expected_iff]
  rw [candidates]
  split
  · rename_i hempty
    rw [if_neg (hnone.mp hempty)]
  · rename_i hsome
    rw [if_pos (not_not.mp (mt hnone.mpr hsome))]

theorem candidates_of_mem (h : name ∈ c.expected) : c.candidates name = c.moves.filter (·.1.callable = name) := by
  rw [candidates_eq, if_pos h]

theorem candidates_of_notMem (h : name ∉ c.expected) : c.candidates name = c.moves.filter (·.1.name = name) := by
  rw [candidates_eq, if_neg h]

theorem candidates_eq_nil_iff : c.candidates name = [] ↔ ∀ u ∈ c.offered, u.callable ≠ name ∧ u.name ≠ name := by
  by_cases hmem : name ∈ c.expected
  · obtain ⟨u, hu, hname⟩ := mem_expected_iff_offered.mp hmem
    rw [candidates_of_mem hmem, filter_moves_eq_nil_iff (·.callable = name)]
    exact iff_of_false (fun hall => hall u hu hname) fun hall => (hall u hu).1 hname
  · rw [candidates_of_notMem hmem, filter_moves_eq_nil_iff (·.name = name)]
    have hcallable := notMem_expected_iff.mp hmem
    exact ⟨fun hall u hu => ⟨hcallable u hu, hall u hu⟩, fun hall u hu => (hall u hu).2⟩

theorem candidates_eq_singleton_iff : c.candidates name = [(t, j)] ↔ (t, j) ∈ c.moves ∧
    (t.callable = name ∧ (∀ u ∈ c.offered, u.callable = name → u = t) ∨
      (∀ u ∈ c.offered, u.callable ≠ name) ∧ t.name = name ∧ ∀ u ∈ c.offered, u.name = name → u = t) := by
  by_cases hmem : name ∈ c.expected
  · have hshadowed : ¬ ∀ u ∈ c.offered, u.callable ≠ name := mt notMem_expected_iff.mpr (not_not.mpr hmem)
    rw [candidates_of_mem hmem, filter_moves_eq_singleton_iff (·.callable = name)]
    simp only [hshadowed, false_and, or_false]
  · have hcallable := notMem_expected_iff.mp hmem
    rw [candidates_of_notMem hmem, filter_moves_eq_singleton_iff (·.name = name)]
    refine and_congr_right fun hmove => ?_
    have hother : t.callable ≠ name := hcallable t (List.mem_map_of_mem hmove)
    exact ⟨fun hnamed => .inr ⟨hcallable, hnamed⟩, fun h => (h.resolve_left fun hcalled => hother hcalled.1).2⟩

theorem resolve_of_eq_nil (h : c.candidates name = []) :
    c.resolve name args = .error (.notAllowed name c.state c.expected) := by
  rw [resolve, h]

theorem resolve_of_eq_singleton {move : Term × StateId} (h : c.candidates name = [move]) :
    c.resolve name args = .ok move := by
  rw [resolve, h]

theorem resolve_of_several (h : 2 ≤ (c.candidates name).length) : c.resolve name args =
    ((c.actions.select name ((c.candidates name).map (·.1)) args c.object).bind ((c.candidates name)[·]?)).elim
      (.error (.ambiguous name c.state ((c.candidates name).map (·.1)))) .ok := by
  rw [resolve]
  split
  · rename_i hnil
    simp [hnil] at h
  · rename_i hone
    simp [hone] at h
  · split
    · rename_i hsome
      rw [hsome, Option.elim_some]
    · rename_i hnone
      rw [hnone, Option.elim_none]

theorem candidates_cases (c : Chain Object Args Output) (name : String) :
    c.candidates name = [] ∨ (∃ move, c.candidates name = [move]) ∨ 2 ≤ (c.candidates name).length := by
  rcases h : c.candidates name with _ | ⟨move, _ | ⟨other, moves⟩⟩
  · exact .inl rfl
  · exact .inr (.inl ⟨move, rfl⟩)
  · exact .inr (.inr (by simp))

theorem candidates_choosing (select : String → List Term → Args → Object → Option Nat) :
    (c.choosing select).candidates name = c.candidates name := rfl

theorem resolve_choosing_of_several (h : 2 ≤ (c.candidates name).length)
    (select : String → List Term → Args → Object → Option Nat) : (c.choosing select).resolve name args =
    ((select name ((c.candidates name).map (·.1)) args c.object).bind ((c.candidates name)[·]?)).elim
      (.error (.ambiguous name c.state ((c.candidates name).map (·.1)))) .ok :=
  resolve_of_several (c := c.choosing select) h

theorem consults_iff : c.Consults name args ↔ 2 ≤ (c.candidates name).length := by
  constructor
  · rintro ⟨select, select', hdiffers⟩
    rcases c.candidates_cases name with hnil | ⟨move, hone⟩ | hseveral
    · have hchosen : ∀ select, (c.choosing select).resolve name args = .error (.notAllowed name c.state c.expected) :=
        fun select => resolve_of_eq_nil ((candidates_choosing select).trans hnil)
      exact absurd ((hchosen select).trans (hchosen select').symm) hdiffers
    · have hchosen : ∀ select, (c.choosing select).resolve name args = .ok move :=
        fun select => resolve_of_eq_singleton ((candidates_choosing select).trans hone)
      exact absurd ((hchosen select).trans (hchosen select').symm) hdiffers
    · exact hseveral
  · intro hseveral
    refine ⟨fun _ _ _ _ => none, fun _ _ _ _ => some 0, ?_⟩
    have hfirst : (c.candidates name)[0]? = some ((c.candidates name)[0]) := List.getElem?_eq_getElem _
    rw [resolve_choosing_of_several hseveral, resolve_choosing_of_several hseveral, Option.bind_none, Option.bind_some,
      hfirst, Option.elim_none, Option.elim_some]
    exact nofun

theorem resolve_of_chooses (h : c.Consults name args) {k : Nat} (hk : c.Chooses name args k) {move : Term × StateId}
    (hmove : (c.candidates name)[k]? = some move) : c.resolve name args = .ok move := by
  rw [resolve_of_several (consults_iff.mp h), hk, Option.bind_some, hmove, Option.elim_some]

theorem resolve_of_not_chooses (h : c.Consults name args)
    (hnone : ∀ k, c.Chooses name args k → (c.candidates name).length ≤ k) :
    c.resolve name args = .error (.ambiguous name c.state ((c.candidates name).map (·.1))) := by
  rw [resolve_of_several (consults_iff.mp h)]
  cases hselect : c.actions.select name ((c.candidates name).map (·.1)) args c.object with
  | none => rfl
  | some k => rw [Option.bind_some, List.getElem?_eq_none (hnone k hselect), Option.elim_none]

theorem resolve_eq_ok_iff (h : c.actions.NeverChoose) : c.resolve name args = .ok (t, j) ↔ c.candidates name = [(t, j)] := by
  rcases c.candidates_cases name with hnil | ⟨move, hone⟩ | hseveral
  · rw [resolve_of_eq_nil hnil, hnil]
    exact iff_of_false nofun nofun
  · rw [resolve_of_eq_singleton hone, hone]
    simp
  · rw [resolve_of_several hseveral, h, Option.bind_none, Option.elim_none]
    refine iff_of_false nofun fun hone => ?_
    simp [hone] at hseveral

theorem offered_cases_of_resolve (h : c.resolve name args = .ok (t, j)) : (t, j) ∈ c.moves ∧
    (t.callable = name ∨ t.name = name ∧ ∀ u ∈ c.offered, u.callable ≠ name) := by
  have hcandidate := mem_candidates_of_resolve h
  by_cases hmem : name ∈ c.expected
  · rw [candidates_of_mem hmem] at hcandidate
    obtain ⟨hmove, hname⟩ := List.mem_filter.mp hcandidate
    exact ⟨hmove, .inl (of_decide_eq_true hname)⟩
  · rw [candidates_of_notMem hmem] at hcandidate
    obtain ⟨hmove, hname⟩ := List.mem_filter.mp hcandidate
    exact ⟨hmove, .inr ⟨of_decide_eq_true hname, notMem_expected_iff.mp hmem⟩⟩

theorem exists_choosing_resolve (t : Term) : ∃ select, ∀ (c : Chain Object Args Output) (j : StateId) (args : Args),
    (t, j) ∈ c.moves → (c.choosing select).resolve t.callable args = .ok (t, j) := by
  refine ⟨fun _ terms _ _ => some (terms.idxOf t), fun c j args hmove => ?_⟩
  have hmem : (t, j) ∈ c.candidates t.callable := by
    rw [candidates_of_mem (mem_expected_iff.mpr ⟨t, j, hmove, rfl⟩)]
    exact List.mem_filter.mpr ⟨hmove, decide_eq_true rfl⟩
  rcases c.candidates_cases t.callable with hnil | ⟨move, hone⟩ | hseveral
  · exact absurd (hnil ▸ hmem) List.not_mem_nil
  · rw [hone, List.mem_singleton] at hmem
    exact resolve_of_eq_singleton (hmem ▸ hone)
  · have hterm : ((c.candidates t.callable).map (·.1))[((c.candidates t.callable).map (·.1)).idxOf t]? = some t :=
      List.getElem?_idxOf (List.mem_map_of_mem hmem)
    rw [List.getElem?_map] at hterm
    obtain ⟨⟨_, i⟩, hchosen, rfl⟩ := Option.map_eq_some_iff.mp hterm
    obtain rfl := eq_of_mem_moves (mem_candidates (List.mem_of_getElem? hchosen)).1 hmove
    rw [resolve_choosing_of_several hseveral, Option.bind_some, hchosen, Option.elim_some]

theorem exists_resolve_iff (h : c.actions.NeverChoose) (ht : t ∈ c.offered) (args : Args) :
    (∃ name j, c.resolve name args = .ok (t, j)) ↔
      (∀ u ∈ c.offered, u.callable = t.callable → u = t) ∨
        (∀ u ∈ c.offered, u.callable ≠ t.name) ∧ ∀ u ∈ c.offered, u.name = t.name → u = t := by
  obtain ⟨⟨_, j⟩, hmove, rfl⟩ := List.mem_map.mp ht
  constructor
  · rintro ⟨name, i, hresolve⟩
    obtain ⟨_, ⟨rfl, hunique⟩ | ⟨hcallable, rfl, hunique⟩⟩ :=
      candidates_eq_singleton_iff.mp ((resolve_eq_ok_iff h).mp hresolve)
    · exact .inl hunique
    · exact .inr ⟨hcallable, hunique⟩
  · rintro (hunique | ⟨hcallable, hunique⟩)
    · exact ⟨_, j, (resolve_eq_ok_iff h).mpr (candidates_eq_singleton_iff.mpr ⟨hmove, .inl ⟨rfl, hunique⟩⟩)⟩
    · exact ⟨_, j, (resolve_eq_ok_iff h).mpr (candidates_eq_singleton_iff.mpr ⟨hmove, .inr ⟨hcallable, rfl, hunique⟩⟩)⟩

theorem result_of_resolve_error (h : c.resolve name args = .error e) : (c.call name args).result = .error e := by
  rw [call, h]

theorem result_of_resolve_ok (h : c.resolve name args = .ok (t, j)) :
    (c.call name args).result = (c.actions.apply t args c.object).1.mapError (.failed name) := by
  rw [call, h]
  rcases happly : c.actions.apply t args c.object with ⟨_ | _, object⟩ <;> simp only [happly] <;> rfl

section

variable {n : String} {s : StateId} {names : List String}

theorem eq_nil_of_resolve (h : c.resolve name args = .error (.notAllowed n s names)) : c.candidates name = [] := by
  rcases c.candidates_cases name with hnil | ⟨move, hone⟩ | hseveral
  · exact hnil
  · rw [resolve_of_eq_singleton hone] at h
    cases h
  · rw [resolve_of_several hseveral] at h
    generalize (c.actions.select name ((c.candidates name).map (·.1)) args c.object).bind _ = chosen at h
    cases chosen <;> cases h

theorem notAllowed_eq (h : (c.call name args).result = .error (.notAllowed n s names)) :
    c.candidates name = [] ∧ n = name ∧ s = c.state ∧ names = c.expected := by
  cases hresolve : c.resolve name args with
  | error e =>
    rw [result_of_resolve_error hresolve] at h
    obtain rfl := Except.error.inj h
    have hnil := eq_nil_of_resolve hresolve
    rw [resolve_of_eq_nil hnil] at hresolve
    cases hresolve
    exact ⟨hnil, rfl, rfl, rfl⟩
  | ok move =>
    rw [result_of_resolve_ok hresolve] at h
    cases happly : (c.actions.apply move.1 args c.object).1 <;> rw [happly] at h <;> cases h

end

theorem notAllowed_iff (c : Chain Object Args Output) (name : String) (args : Args) :
    (c.call name args).result = .error (.notAllowed name c.state c.expected) ↔
      ∀ t ∈ c.offered, t.callable ≠ name ∧ t.name ≠ name := by
  rw [← candidates_eq_nil_iff]
  exact ⟨fun h => (notAllowed_eq h).1, fun h => result_of_resolve_error (resolve_of_eq_nil h)⟩

structure Resolves (g : Grammar) (c : Chain Object Args Output) : Prop where
  nodup : c.offered.Nodup
  mem_offered_iff {t : Term} : t ∈ c.offered ↔ ∃ id j, (id, j) ∈ g.dfa.edges c.state ∧ g.terms.get? id = some t
  exists_term {id : TermId} {j : StateId} : (id, j) ∈ g.dfa.edges c.state → ∃ t, g.terms.get? id = some t
  notAllowed_iff (name : String) (args : Args) : (c.call name args).result = .error (.notAllowed name c.state c.expected) ↔
    ∀ t ∈ c.offered, t.callable ≠ name ∧ t.name ≠ name
  notAllowed_eq {name n : String} {args : Args} {s : StateId} {names : List String} :
    (c.call name args).result = .error (.notAllowed n s names) →
      n = name ∧ s = c.state ∧ names = c.expected ∧ name ∉ c.expected
  taken {name : String} {args : Args} {t : Term} {j : StateId} : c.resolve name args = .ok (t, j) →
    (t, j) ∈ c.moves ∧ (t.callable = name ∨ t.name = name ∧ ∀ u ∈ c.offered, u.callable ≠ name) ∧
      (c.call name args).result = (c.actions.apply t args c.object).1.mapError (.failed name)
  candidates_eq (name : String) : c.candidates name =
    if name ∈ c.expected then c.moves.filter (·.1.callable = name) else c.moves.filter (·.1.name = name)
  consults_iff {name : String} {args : Args} : c.Consults name args ↔ 2 ≤ (c.candidates name).length
  chosen {name : String} {args : Args} {k : Nat} {move : Term × StateId} : c.Consults name args →
    c.Chooses name args k → (c.candidates name)[k]? = some move → c.resolve name args = .ok move
  unchosen {name : String} {args : Args} : c.Consults name args →
    (∀ k, c.Chooses name args k → (c.candidates name).length ≤ k) →
      (c.call name args).result = .error (.ambiguous name c.state ((c.candidates name).map (·.1)))
  by_alias (t : Term) : ∃ select, ∀ (j : StateId) (args : Args), (t, j) ∈ c.moves →
    (c.choosing select).resolve t.callable args = .ok (t, j)
  reached_iff {t : Term} : c.actions.NeverChoose → t ∈ c.offered → ∀ args : Args,
    (∃ name j, c.resolve name args = .ok (t, j)) ↔
      (∀ u ∈ c.offered, u.callable = t.callable → u = t) ∨
        (∀ u ∈ c.offered, u.callable ≠ t.name) ∧ ∀ u ∈ c.offered, u.name = t.name → u = t

end Chain

variable {g : Grammar} {c : Chain Object Args Output}

theorem Chain.Within.mem_offered_iff (h : c.Within g) {t : Term} :
    t ∈ c.offered ↔ ∃ id j, (id, j) ∈ g.dfa.edges c.state ∧ g.terms.get? id = some t := by
  rw [Chain.offered_eq, h.dfa_eq, h.terms_eq, List.mem_filterMap]
  constructor
  · rintro ⟨id, hid, ht⟩
    obtain ⟨⟨_, j⟩, hedge, rfl⟩ := List.mem_map.mp hid
    exact ⟨_, j, hedge, ht⟩
  · rintro ⟨id, j, hedge, ht⟩
    exact ⟨id, List.mem_map_of_mem hedge, ht⟩

theorem resolves_of_compile {limits : Limits} {source : String} (h : Grammar.compile limits source = .ok g)
    (hc : c.Within g) : c.Resolves g where
  nodup := c.nodup_offered
  mem_offered_iff := hc.mem_offered_iff
  exists_term := (Grammar.compiled_of_compile h).exists_term_of_mem_edges
  notAllowed_iff := c.notAllowed_iff
  notAllowed_eq hresult := by
    obtain ⟨hnil, hname, hstate, hexpected⟩ := Chain.notAllowed_eq hresult
    refine ⟨hname, hstate, hexpected, Chain.notMem_expected_iff.mpr fun u hu => ?_⟩
    exact (Chain.candidates_eq_nil_iff.mp hnil u hu).1
  taken hresolve := by
    obtain ⟨hmove, hname⟩ := Chain.offered_cases_of_resolve hresolve
    exact ⟨hmove, hname, Chain.result_of_resolve_ok hresolve⟩
  candidates_eq := c.candidates_eq
  consults_iff := Chain.consults_iff
  chosen hconsults hk hmove := Chain.resolve_of_chooses hconsults hk hmove
  unchosen hconsults hnone := Chain.result_of_resolve_error (Chain.resolve_of_not_chooses hconsults hnone)
  by_alias t := by
    obtain ⟨select, hselect⟩ := Chain.exists_choosing_resolve t
    exact ⟨select, hselect c⟩
  reached_iff := Chain.exists_resolve_iff

theorem resolves_shadowed : ∃ g, Grammar.compile ⟨1, 4⟩ "x:k|y:k|k|z:y" = .ok g ∧ (g.chain recorder []).Within g ∧
    (g.chain recorder []).Resolves g ∧ recorder.NeverChoose := by
  have hterms : (Grammar.compile ⟨1, 4⟩ "x:k|y:k|k|z:y").toOption.any (·.terms.size = 4) = true := by decide +kernel
  obtain ⟨g, hg, _⟩ := exists_ok_of_any hterms
  have hwithin := (Follows.start g recorder []).within (Grammar.compiled_of_compile hg)
  exact ⟨g, hg, hwithin, resolves_of_compile hg hwithin, neverChoose_recorder⟩

end CallGrammar
