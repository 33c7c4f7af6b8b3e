import CallGrammar.Proofs.Compiled

namespace CallGrammar

namespace Search

variable {next : Nat → List Nat}

def found (is : List Nat) : List Nat := (fresh .empty is).1

theorem mem_found {is : List Nat} {j : Nat} : j ∈ found is ↔ j ∈ is := by
  rw [found, mem_fresh_fst]
  simp [StateSet.not_mem_empty]

theorem found_append (is js : List Nat) : found (is ++ js) = found is ++ (fresh (fresh .empty is).2 js).1 := by
  rw [found, found, fresh_append]

theorem found_concat_of_mem {is : List Nat} {j : Nat} (h : j ∈ is) : found (is ++ [j]) = found is := by
  rw [found_append, fresh_cons_of_mem (mem_fresh_snd.mpr (.inl h)), fresh, List.append_nil]

theorem found_concat_of_notMem {is : List Nat} {j : Nat} (h : j ∉ is) : found (is ++ [j]) = found is ++ [j] := by
  have hnot : j ∉ (fresh .empty is).2 := by
    rw [mem_fresh_snd]
    simp [h, StateSet.not_mem_empty]
  rw [found_append, fresh_cons_of_notMem hnot, fresh]

theorem range_eq_append {m n : Nat} (h : m ≤ n) : List.range n = List.range m ++ List.range' m (n - m) := by
  have happend := @List.range'_append_1 0 m (n - m)
  rw [Nat.zero_add, Nat.add_sub_cancel' h] at happend
  rw [List.range_eq_range', List.range_eq_range', happend]

def followed (next : Nat → List Nat) (i : Nat) : List Nat := 0 :: (List.range i).flatMap next

theorem followed_append (next : Nat → List Nat) {i j : Nat} (h : i ≤ j) :
    followed next j = followed next i ++ (List.range' i (j - i)).flatMap next := by
  rw [followed, followed, range_eq_append h, List.flatMap_append, List.cons_append]

structure Ascending (next : Nat → List Nat) (n : Nat) : Prop where
  early {i : Nat} : i < n → ∃ m, i < m ∧ found (followed next i) = List.range m
  all : found (followed next n) = List.range n

theorem exists_range'_of_range_eq_append {m n : Nat} {is : List Nat} (h : List.range n = List.range m ++ is) :
    m ≤ n ∧ is = List.range' m (n - m) := by
  have hlength := congrArg List.length h
  rw [List.length_append, List.length_range, List.length_range] at hlength
  have hle : m ≤ n := by omega
  exact ⟨hle, List.append_cancel_left (h.symm.trans (range_eq_append hle))⟩

theorem le_of_found_followed {i j m k : Nat} (hij : i ≤ j) (hi : found (followed next i) = List.range m)
    (hj : found (followed next j) = List.range k) : m ≤ k := by
  rw [followed_append next hij, found_append, hi] at hj
  exact (exists_range'_of_range_eq_append hj.symm).1

theorem fresh_followed {i m k : Nat} (him : i ≤ m) (hi : found (followed next i) = List.range m)
    (hm : found (followed next m) = List.range k) :
    fresh (fresh .empty (followed next i)).2 ((List.range' i (m - i)).flatMap next) =
      (List.range' m (k - m), (fresh .empty (followed next m)).2) := by
  have hboth := fresh_append .empty (followed next i) ((List.range' i (m - i)).flatMap next)
  rw [← followed_append next him] at hboth
  refine Prod.ext ?_ (congrArg Prod.snd hboth).symm
  have hfirst : found (followed next m) = found (followed next i) ++ _ := congrArg Prod.fst hboth
  rw [hi, hm] at hfirst
  exact (exists_range'_of_range_eq_append hfirst).2

theorem flatten_levelsFrom {n rounds i m : Nat} (h : Ascending next n) (him : i ≤ m)
    (hi : found (followed next i) = List.range m) (hmn : m ≤ n) (hrounds : n - m ≤ rounds) :
    (levelsFrom next rounds (fresh .empty (followed next i)).2 ((List.range' i (m - i)).flatMap next)).flatten =
      List.range' m (n - m) := by
  induction rounds generalizing i m with
  | zero =>
    have hzero : n - m = 0 := by omega
    rw [hzero, levelsFrom, List.flatten_nil, List.range'_zero]
  | succ rounds ih =>
    rcases Nat.lt_or_eq_of_le hmn with hlt | rfl
    · obtain ⟨k, hmk, hk⟩ := h.early hlt
      have hkn : k ≤ n := le_of_found_followed hmn hk h.all
      have hne : (fresh (fresh .empty (followed next i)).2 ((List.range' i (m - i)).flatMap next)).1 ≠ [] := by
        rw [fresh_followed him hi hk, ne_eq, List.range'_eq_nil_iff]
        omega
      have hsplit := @List.range'_append_1 m (k - m) (n - k)
      rw [Nat.add_sub_cancel' (Nat.le_of_lt hmk), show k - m + (n - k) = n - m by omega] at hsplit
      rw [levelsFrom_of_fresh_ne_nil hne, List.flatten_cons, fresh_followed him hi hk,
        ih (Nat.le_of_lt hmk) hk hkn (by omega), hsplit]
    · have hnil : (fresh (fresh .empty (followed next i)).2 ((List.range' i (m - i)).flatMap next)).1 = [] := by
        rw [fresh_followed him hi h.all, Nat.sub_self, List.range'_zero]
      rw [levelsFrom_of_fresh_eq_nil hnil, List.flatten_nil, Nat.sub_self, List.range'_zero]

theorem order_eq_range {n rounds : Nat} (h : Ascending next n) (hn : 0 < n) (hrounds : n ≤ rounds) :
    order next rounds [0] = List.range n := by
  obtain ⟨rounds, rfl⟩ : ∃ r, rounds = r + 1 := Nat.exists_eq_add_one.mpr (Nat.lt_of_lt_of_le hn hrounds)
  have hstart : (fresh .empty [0]).1 = [0] := by rw [fresh_cons_of_notMem (StateSet.not_mem_empty 0), fresh]
  have hne : (fresh .empty [0]).1 ≠ [] := by
    rw [hstart]
    exact List.cons_ne_nil 0 []
  have hrest := flatten_levelsFrom h (Nat.zero_le 1) hstart hn (Nat.sub_le_of_le_add hrounds)
  rw [order, levels, levelsFrom_of_fresh_ne_nil hne, List.flatten_cons, hstart]
  have hone : (List.range' 0 (1 - 0)) = [0] := rfl
  rw [hone] at hrest
  rw [range_eq_append hn]
  exact congrArg (List.cons 0) hrest

end Search

open Search (found followed Ascending)

theorem Dfa.flatMap_successors (d : Dfa) (i : Nat) :
    (List.range i).flatMap d.successors = (d.states.toList.take i).flatMap DfaState.targets := by
  induction i with
  | zero => rfl
  | succ i ih =>
    rw [List.range_succ, List.flatMap_append, ih, List.take_add_one, List.flatMap_append, List.flatMap_singleton,
      successors, edges, get?, ← Array.getElem?_toList]
    cases d.states.toList[i]? <;> simp [DfaState.targets]

namespace Subsets

variable {limit : Option Nat} {n : Nfa} {core : StateSet} {cores cores' : Array StateSet} {states : Array DfaState}
  {state state' : DfaState} {ts : List TermId}  {j : StateId}

theorem found_number (js : List StateId) (hjs : found js = List.range cores.size)
    (h : number limit cores core = .ok (cores', j)) :
    found (js ++ [j]) = List.range cores'.size := by
  have hmem : j ∈ js ↔ j < cores.size := by rw [← Search.mem_found, hjs, List.mem_range]
  rcases number_cases h with ⟨rfl, hj⟩ | ⟨rfl, rfl, _⟩
  · rw [Search.found_concat_of_mem (hmem.mpr (Array.getElem?_eq_some_iff.mp hj).1), hjs]
  · rw [Search.found_concat_of_notMem (mt hmem.mp (Nat.lt_irrefl _)), hjs, Array.size_push, List.range_succ]

theorem found_addEdges (js : List StateId) (hts : ts.Nodup) (hnew : ∀ t ∈ ts, t ∉ state.terms)
    (hjs : found (js ++ state.targets) = List.range cores.size)
    (h : addEdges limit n core ts cores state = .ok (cores', state')) :
    found (js ++ state'.targets) = List.range cores'.size := by
  induction ts generalizing cores state with
  | nil =>
    obtain ⟨rfl, rfl⟩ := Prod.mk.inj (Except.ok.inj h)
    exact hjs
  | cons t ts ih =>
    rw [addEdges] at h
    split at h
    · rename_i middle target hnumber
      refine ih (List.nodup_cons.mp hts).2 (DfaState.notMem_terms_insert hts hnew target) ?_ h
      rw [DfaState.targets_insert_of_notMem (hnew t List.mem_cons_self), ← List.append_assoc]
      exact found_number _ hjs hnumber
    · cases h

structure Discovered (cores : Array StateSet) (states : Array DfaState) : Prop where
  early {i : Nat} : i < states.size →
    ∃ m, i < m ∧ found (0 :: (states.toList.take i).flatMap DfaState.targets) = List.range m
  all : found (0 :: states.toList.flatMap DfaState.targets) = List.range cores.size

theorem discovered_initial (h : number limit #[] core = .ok (cores, j)) : Discovered cores #[] where
  early hi := absurd hi (Nat.not_lt_zero _)
  all := by
    obtain rfl : j = 0 := by
      rcases number_cases h with ⟨rfl, hj⟩ | ⟨_, hj, _⟩
      · cases hj
      · exact hj
    exact found_number [] rfl h

theorem Discovered.step (h : Discovered cores states) (hcore : cores[states.size]? = some core)
    (hadd : addEdges limit n core (n.terms core) cores (.fresh (n.anyFinal core)) = .ok (cores', state)) :
    Discovered cores' (states.push state) where
  early {i} hi := by
    have hle : i ≤ states.toList.length := by
      rw [Array.size_push] at hi
      exact Nat.le_of_lt_succ hi
    rw [Array.toList_push, List.take_append_of_le_length hle]
    rcases Nat.lt_or_eq_of_le hle with hlt | rfl
    · exact h.early hlt
    · rw [List.take_length]
      exact ⟨cores.size, (Array.getElem?_eq_some_iff.mp hcore).1, h.all⟩
  all := by
    have hnone : (DfaState.fresh (n.anyFinal core)).targets = [] := rfl
    have hall : found (0 :: states.toList.flatMap DfaState.targets ++ state.targets) = List.range cores'.size := by
      refine found_addEdges _ (nodup_eraseDups _) (fun _ _ => List.not_mem_nil) ?_ hadd
      rw [hnone, List.append_nil, h.all]
    rw [Array.toList_push, List.flatMap_append, List.flatMap_singleton]
    exact hall

theorem discovered_build {rounds : Nat} {r : Subsets} (h : Discovered cores states)
    (hr : build limit n rounds cores states = .ok r) : Discovered r.cores r.dfa.states := by
  induction rounds generalizing cores states with
  | zero =>
    obtain rfl := Except.ok.inj hr
    exact h
  | succ rounds ih =>
    rw [build] at hr
    split at hr
    · obtain rfl := Except.ok.inj hr
      exact h
    · rename_i core hcore
      split at hr
      · rename_i hadd
        exact ih (h.step hcore hadd) hr
      · cases hr

theorem discovered_determinize {r : Subsets} (h : n.determinize limit = .ok r) : Discovered r.cores r.dfa.states := by
  rw [Nfa.determinize] at h
  split at h
  · rename_i hnumber
    exact discovered_build (discovered_initial hnumber) h
  · cases h

variable {r : Subsets}

theorem Finished.wellFormed_dfa (h : Finished n r) : r.dfa.WellFormed where
  edge_lt {i j t} hedge := by
    have hcore := Array.getElem?_eq_getElem (Nat.lt_of_lt_of_eq (Dfa.lt_size_of_mem_edges hedge) h.size_eq.symm)
    have htarget := h.getElem?_of_step hcore (Dfa.step_eq_some_iff.mpr hedge)
    exact Nat.lt_of_lt_of_eq (Array.getElem?_eq_some_iff.mp htarget).1 h.size_eq

theorem Finished.size_pos (h : Finished n r) : 0 < r.dfa.size :=
  Nat.lt_of_lt_of_eq (Array.getElem?_eq_some_iff.mp h.start).1 h.size_eq

theorem Finished.ascending (h : Finished n r) (hr : Discovered r.cores r.dfa.states) :
    Ascending r.dfa.successors r.dfa.size where
  early {i} hi := by
    rw [followed, Dfa.flatMap_successors]
    exact hr.early hi
  all := by
    have hall : r.dfa.states.toList.take r.dfa.size = r.dfa.states.toList := List.take_length
    rw [followed, Dfa.flatMap_successors, hall, hr.all, h.size_eq]

theorem reachable_of_determinize (hn : n.WellFormed) (h : n.determinize limit = .ok r) :
    r.dfa.reachable = some (List.range r.dfa.size) := by
  have hfinished := finished_determinize hn h
  have hascending := hfinished.ascending (discovered_determinize h)
  rw [hfinished.wellFormed_dfa.reachable_eq hfinished.size_pos]
  exact congrArg some (Search.order_eq_range hascending hfinished.size_pos (Nat.le_refl _))

end Subsets

theorem numbered_as_found :
    (∀ {n : Nfa} {limit : Option Nat} {r : Subsets}, n.WellFormed → n.determinize limit = .ok r →
      r.dfa.reachable = some (List.range r.dfa.size)) ∧
    ∀ {limits : Limits} {source : String} {g : Grammar}, Grammar.compile limits source = .ok g →
      g.dfa.reachable = some (List.range g.dfa.size) := by
  refine ⟨Subsets.reachable_of_determinize, fun {limits source g} h => ?_⟩
  obtain ⟨_, hnfa, hsubsets⟩ := Grammar.compile_eq_ok h
  exact Subsets.reachable_of_determinize (hnfa ▸ Nfa.wellFormed_ofExpr _) hsubsets

theorem numbered_as_found_in_knot : Subsets.knot.WellFormed ∧
    (∃ r, Subsets.knot.determinize (some 3) = .ok r ∧ r.dfa.reachable = some [0, 1, 2]) ∧
    ∃ g, Grammar.compile ⟨1, 7⟩ "a (b c | c d)* e? | d a" = .ok g ∧
      g.dfa.reachable = some (List.range g.dfa.size) := by
  have hknot : Subsets.knot.Built := by
    refine .addEdge (.addEdge (.addEdge (.addEpsilon (.addEpsilon (.addState .initial) ?_ ?_) ?_ ?_) ?_ ?_) ?_ ?_) ?_ ?_
    all_goals decide
  have hsize : (Subsets.knot.determinize (some 3)).toOption.map (·.dfa.size) = some 3 := by decide +kernel
  have hsome : (Grammar.compile ⟨1, 7⟩ "a (b c | c d)* e? | d a").toOption.isSome = true := by decide +kernel
  refine ⟨hknot.wellFormed, ?_, ?_⟩
  · cases hr : Subsets.knot.determinize (some 3) with
    | ok r =>
      rw [hr] at hsize
      have hthree : r.dfa.size = 3 := Option.some.inj hsize
      refine ⟨r, rfl, ?_⟩
      rw [numbered_as_found.1 hknot.wellFormed hr, hthree]
      rfl
    | error e =>
      rw [hr] at hsize
      cases hsize
  · cases hg : Grammar.compile ⟨1, 7⟩ "a (b c | c d)* e? | d a" with
    | ok g => exact ⟨g, rfl, numbered_as_found.2 hg⟩
    | error e =>
      rw [hg] at hsome
      cases hsome

end CallGrammar
