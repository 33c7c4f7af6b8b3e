import CallGrammar.Grammar
import CallGrammar.Proofs.Parser
import CallGrammar.Proofs.Subsets
import CallGrammar.Proofs.Trim

namespace CallGrammar

open CallGrammar.Expr (Matches)

theorem exists_ok_of_any {Error Value : Type} {result : Except Error Value} {p : Value → Bool}
    (h : result.toOption.any p = true) : ∃ value, result = .ok value ∧ p value = true := by
  cases result with
  | ok value => exact ⟨value, rfl, h⟩
  | error _ => cases h

def TermTable.Spells (table : TermTable) (ids : List TermId) (w : List Term) : Prop := ids.map table.get? = w.map some

namespace TermTable

variable {table : TermTable} {ids ids' is : List TermId} {w w' v : List Term} {id : TermId} {t : Term}

theorem Spells.concat (h : table.Spells ids w) (hid : table.get? id = some t) :
    table.Spells (ids ++ [id]) (w ++ [t]) := by
  unfold Spells at h ⊢
  simp [h, hid]

theorem Spells.terms_eq (h : table.Spells ids w) (h' : table.Spells ids w') : w = w' := by
  have hsame : w.map some = w'.map some := h.symm.trans h'
  exact (List.map_inj_right fun _ _ => Option.some.inj).mp hsame

theorem Spells.ids_eq (h : table.Spells ids w) (h' : table.Spells ids' w) : ids = ids' := by
  unfold Spells at h h'
  induction w generalizing ids ids' with
  | nil =>
    rw [List.map_nil, List.map_eq_nil_iff] at h h'
    rw [h, h']
  | cons t w ih =>
    obtain ⟨i, is, rfl, hi, his⟩ := List.map_eq_cons_iff.mp h
    obtain ⟨j, js, rfl, hj, hjs⟩ := List.map_eq_cons_iff.mp h'
    rw [eq_of_get?_eq hi hj, ih his hjs]

theorem Spells.exists_terms_append (h : table.Spells ids w) (h' : table.Spells (ids ++ is) w') :
    ∃ v, w' = w ++ v ∧ table.Spells is v := by
  unfold Spells at h'
  rw [List.map_append, eq_comm] at h'
  obtain ⟨first, v, rfl, hfirst, hv⟩ := List.map_eq_append_iff.mp h'
  have hw : w = first := h.terms_eq hfirst.symm
  exact ⟨v, by rw [hw], hv.symm⟩

theorem Spells.exists_ids_append (h : table.Spells ids w) (h' : table.Spells ids' (w ++ v)) :
    ∃ is, ids' = ids ++ is ∧ table.Spells is v := by
  unfold Spells at h'
  rw [List.map_append] at h'
  obtain ⟨first, is, rfl, hfirst, his⟩ := List.map_eq_append_iff.mp h'
  have hids : ids = first := h.ids_eq hfirst
  exact ⟨is, by rw [hids], his⟩

theorem Spells.exists_id (h : table.Spells ids (t :: v)) : ∃ id is, ids = id :: is ∧ table.get? id = some t := by
  obtain ⟨id, is, rfl, hid, _⟩ := List.map_eq_cons_iff.mp h
  exact ⟨id, is, rfl, hid⟩

theorem Spells.exists_term (h : table.Spells ids w) (hid : id ∈ ids) : ∃ t, table.get? id = some t := by
  have hmem : table.get? id ∈ w.map some := h ▸ List.mem_map_of_mem hid
  obtain ⟨t, _, ht⟩ := List.mem_map.mp hmem
  exact ⟨t, ht.symm⟩

end TermTable

open TermTable

def Denotes (source : String) (w : List Term) : Prop :=
  ∃ branches, Reads (.alternation branches) (lex source) ∧ ((Expr.alt branches).map (·.term)).Matches w

def Parsed.nfa (p : Parsed) : Nfa := Nfa.ofExpr (p.root.map (·.id))

theorem Parsed.wellFormed_nfa (p : Parsed) : p.nfa.WellFormed := Nfa.wellFormed_ofExpr (p.root.map Occurrence.id)

namespace Grammar

section

variable {limits : Limits} {source : String}

theorem compile_of_parse_error {e : ParseError} (h : parse (some limits.recursion) source = .error e) :
    compile limits source = .error e.compileError := by
  rw [parse] at h
  rw [compile, compileLogged, h]

theorem compile_of_parse_ok {p : Parsed} (h : parse (some limits.recursion) source = .ok p) : compile limits source =
    match p.nfa.determinize (some limits.states) with
    | .ok subsets => .ok ⟨source, p.root, p.terms, p.nfa, subsets⟩
    | .error e => .error (.stateLimitExceeded e.limit) := by
  rw [parse] at h
  rw [compile, compileLogged, h, Parsed.nfa]
  simp only
  cases (Nfa.ofExpr (p.root.map (·.id))).determinize (some limits.states) <;> rfl

end

structure Compiled (g : Grammar) : Prop where
  named {o : Occurrence} : o ∈ g.ast.leaves → g.terms.get? o.id = some o.term
  full : g.ast.Full
  nfa_eq : g.nfa = Nfa.ofExpr (g.ast.map (·.id))
  mirrors : g.subsets.Mirrors g.nfa

theorem compile_eq_ok {limits : Limits} {source : String} {g : Grammar} (h : compile limits source = .ok g) :
    parse (some limits.recursion) source = .ok ⟨g.ast, g.terms⟩ ∧
    g.nfa = Nfa.ofExpr (g.ast.map (·.id)) ∧ g.nfa.determinize (some limits.states) = .ok g.subsets := by
  cases hparse : parse (some limits.recursion) source with
  | error e =>
    rw [compile_of_parse_error hparse] at h
    cases h
  | ok p =>
    rw [compile_of_parse_ok hparse] at h
    split at h
    · rename_i subsets hsubsets
      obtain rfl := Except.ok.inj h
      exact ⟨rfl, rfl, hsubsets⟩
    · cases h

theorem exists_reads_of_compile {limits : Limits} {source : String} {g : Grammar} (h : compile limits source = .ok g) :
    ∃ branches, Reads (.alternation branches) (lex source) ∧ g.ast.map Occurrence.mention = .alt branches := by
  obtain ⟨hparse, _, _⟩ := compile_eq_ok h
  obtain ⟨branches, hread, hnumber⟩ := parseTokens_eq_ok_iff.mp (parseTokens_none hparse)
  exact ⟨branches, hread, by rw [← Expr.map_mention_number .empty (.alt branches), hnumber]⟩

theorem matches_iff_denotes {limits : Limits} {source : String} {g : Grammar} (h : compile limits source = .ok g)
    (w : List Term) : g.expr.Matches w ↔ Denotes source w := by
  obtain ⟨branches, hread, hast⟩ := exists_reads_of_compile h
  have hexpr : g.expr = (Expr.alt branches).map (·.term) := by
    rw [← hast, Expr.map_map]
    rfl
  rw [hexpr]
  constructor
  · intro hw
    exact ⟨branches, hread, hw⟩
  · rintro ⟨tree, htree, hw⟩
    rwa [← reads_unique htree hread]

theorem compiled_of_compile {limits : Limits} {source : String} {g : Grammar} (h : compile limits source = .ok g) :
    g.Compiled := by
  obtain ⟨hparse, hnfa, hsubsets⟩ := compile_eq_ok h
  obtain ⟨branches, hread, hnumber⟩ := parseTokens_eq_ok_iff.mp (parseTokens_none hparse)
  simp only at hnumber
  refine ⟨?_, ?_, hnfa, ?_⟩
  · intro o ho
    have hnamed := Expr.get?_of_mem_leaves_number .empty (.alt branches) (o := o)
    rw [hnumber] at hnamed
    exact hnamed ho
  · have hmention := Expr.map_mention_number .empty (.alt branches)
    rw [hnumber] at hmention
    rw [← Expr.full_map_iff Occurrence.mention, hmention]
    exact .alt hread.full.1 hread.full.2
  · exact Subsets.mirrors_of_determinize (hnfa ▸ Nfa.wellFormed_ofExpr _) hsubsets

namespace Compiled

variable {g : Grammar} {ids : List TermId} {w : List Term} {s : StateId} {t : Term}

theorem spells_occurrences (h : g.Compiled) {os : List Occurrence} (hos : Matches g.ast os) :
    g.terms.Spells (os.map (·.id)) (os.map (·.term)) := by
  rw [Spells]
  rw [List.map_map, List.map_map]
  apply List.map_congr_left
  intro o ho
  exact h.named (Expr.mem_leaves_of_matches hos ho)

theorem exists_terms (h : g.Compiled) (hids : Matches (g.ast.map (·.id)) ids) :
    ∃ w, g.terms.Spells ids w ∧ g.expr.Matches w := by
  obtain ⟨os, hos, rfl⟩ := Expr.matches_map_iff.mp hids
  exact ⟨os.map (·.term), h.spells_occurrences hos, Expr.matches_map_iff.mpr ⟨os, hos, rfl⟩⟩

theorem exists_ids (h : g.Compiled) (hw : g.expr.Matches w) :
    ∃ ids, g.terms.Spells ids w ∧ Matches (g.ast.map (·.id)) ids := by
  obtain ⟨os, hos, rfl⟩ := Expr.matches_map_iff.mp hw
  exact ⟨os.map (·.id), h.spells_occurrences hos, Expr.matches_map_iff.mpr ⟨os, hos, rfl⟩⟩

theorem matches_iff (h : g.Compiled) (hspells : g.terms.Spells ids w) :
    Matches (g.ast.map (·.id)) ids ↔ g.expr.Matches w := by
  constructor
  · intro hids
    obtain ⟨w', hspells', hw⟩ := h.exists_terms hids
    rwa [hspells.terms_eq hspells']
  · intro hw
    obtain ⟨ids', hspells', hids⟩ := h.exists_ids hw
    rwa [hspells.ids_eq hspells']

theorem wellFormed (h : g.Compiled) : g.nfa.WellFormed := h.nfa_eq ▸ Nfa.wellFormed_ofExpr _

theorem isFinal_iff (h : g.Compiled) (hrun : g.dfa.run ids = some s) (hspells : g.terms.Spells ids w) :
    g.dfa.isFinal s = true ↔ g.expr.Matches w := by
  have hfinal : g.dfa.isFinal s = g.nfa.accepts ids := h.mirrors.isFinal ids s hrun
  rw [hfinal, Nfa.accepts_iff_path h.wellFormed, h.nfa_eq, Nfa.path_ofExpr_iff, h.matches_iff hspells]

theorem exists_edge_iff_matches (h : g.Compiled) (hrun : g.dfa.run ids = some s) (id : TermId) :
    (∃ j, (id, j) ∈ g.dfa.edges s) ↔ ∃ v, Matches (g.ast.map (·.id)) (ids ++ id :: v) := by
  have hfull : (g.ast.map (·.id)).Full := (Expr.full_map_iff (·.id) g.ast).mpr h.full
  have halive := Nfa.simulate_nonempty_iff hfull (w := ids ++ [id])
  rw [← h.nfa_eq, Nfa.simulate_concat h.wellFormed] at halive
  simp only [List.append_assoc, List.singleton_append] at halive
  have hterms : (∃ j, (id, j) ∈ g.dfa.edges s) ↔ id ∈ g.nfa.nextTerms (g.nfa.simulate ids) :=
    h.mirrors.terms ids s hrun id
  rw [hterms, Nfa.mem_nextTerms, ← halive, ← Bool.not_eq_true, Nfa.isEmpty_advance_iff h.wellFormed, not_not]

theorem exists_edge_iff (h : g.Compiled) (hrun : g.dfa.run ids = some s) (hspells : g.terms.Spells ids w) :
    (∃ id j, (id, j) ∈ g.dfa.edges s ∧ g.terms.get? id = some t) ↔ ∃ v, g.expr.Matches (w ++ t :: v) := by
  constructor
  · rintro ⟨id, j, hj, hid⟩
    obtain ⟨is, his⟩ := (h.exists_edge_iff_matches hrun id).mp ⟨j, hj⟩
    obtain ⟨w', hspells', hw⟩ := h.exists_terms his
    rw [List.append_cons] at hspells'
    obtain ⟨v, rfl, _⟩ := (hspells.concat hid).exists_terms_append hspells'
    rw [← List.append_cons] at hw
    exact ⟨v, hw⟩
  · rintro ⟨v, hv⟩
    obtain ⟨ids', hspells', hids⟩ := h.exists_ids hv
    obtain ⟨rest, rfl, hrest⟩ := hspells.exists_ids_append hspells'
    obtain ⟨id, is, rfl, hid⟩ := hrest.exists_id
    obtain ⟨j, hj⟩ := (h.exists_edge_iff_matches hrun id).mpr ⟨is, hids⟩
    exact ⟨id, j, hj, hid⟩

end Compiled

theorem finished_of_compile {limits : Limits} {source : String} {g : Grammar} (h : compile limits source = .ok g) :
    Subsets.Finished g.nfa g.subsets :=
  Subsets.finished_determinize (compiled_of_compile h).wellFormed (compile_eq_ok h).2.2

end Grammar

end CallGrammar
