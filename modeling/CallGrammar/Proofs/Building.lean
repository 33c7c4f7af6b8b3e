import CallGrammar.Proofs.Fragment
import CallGrammar.Proofs.Worklist

namespace CallGrammar

theorem mapM_eq_some_map {α β : Type} {f : α → Option β} {g : α → β} {as : List α} (h : ∀ a ∈ as, f a = some (g a)) :
    as.mapM f = some (as.map g) := by
  induction as with
  | nil => rfl
  | cons a as ih =>
    obtain ⟨ha, has⟩ := List.forall_mem_cons.mp h
    rw [List.mapM_cons, ha, ih has]
    rfl

namespace Nfa

def addEpsilon? (n : Nfa) (source target : StateId) : Option Nfa :=
  if source < n.size then some (n.addEpsilon source target) else none

def addEdge? (n : Nfa) (source : StateId) (term : TermId) (target : StateId) : Option Nfa :=
  if source < n.size then some (n.addEdge source term target) else none

def addLoop? (n : Nfa) (source target : StateId) (skippable : Bool) (body : Nfa → StateId → StateId → Option Nfa) :
    Option Nfa := do
  let entry := n.size
  let exit := n.size + 1
  let entered ← (n.addStates 2).addEpsilon? source entry
  let looped ← body entered entry exit
  let back ← looped.addEpsilon? exit entry
  let left ← back.addEpsilon? exit target
  if skippable then left.addEpsilon? entry exit else some left

mutual

def addExpr? (n : Nfa) : Expr TermId → StateId → StateId → Option Nfa
  | .term t, source, target => n.addEdge? source t target
  | .seq items, source, target => addItems? (n.addStates (items.length - 1)) items source n.size target
  | .alt branches, source, target => addBranches? n branches source target
  | .star inner, source, target => n.addLoop? source target true fun m entry exit => addExpr? m inner entry exit
  | .plus inner, source, target => n.addLoop? source target false fun m entry exit => addExpr? m inner entry exit
  | .optional inner, source, target => (addExpr? n inner source target).bind (·.addEpsilon? source target)

def addItems? (n : Nfa) : List (Expr TermId) → StateId → StateId → StateId → Option Nfa
  | [], source, _, target => n.addEpsilon? source target
  | [e], source, _, target => addExpr? n e source target
  | e :: es, source, joint, target => (addExpr? n e source joint).bind (addItems? · es joint (joint + 1) target)

def addBranches? (n : Nfa) : List (Expr TermId) → StateId → StateId → Option Nfa
  | [], _, _ => some n
  | e :: es, source, target => (addExpr? n e source target).bind (addBranches? · es source target)

end

def ofExpr? (e : Expr TermId) : Option Nfa := addExpr? initial e start accept

variable {n : Nfa} {s t : Nat}

theorem addEpsilon?_eq (hs : s < n.size) : n.addEpsilon? s t = some (n.addEpsilon s t) := if_pos hs

theorem addEdge?_eq {x : TermId} (hs : s < n.size) : n.addEdge? s x t = some (n.addEdge s x t) := if_pos hs

theorem addLoop?_eq {skippable : Bool} {body? : Nfa → StateId → StateId → Option Nfa}
    {body : Nfa → StateId → StateId → Nfa} (hn : n.WellFormed) (hs : s < n.size)
    (hbody : ∀ {m : Nfa} {s t : Nat}, m.WellFormed → s < m.size → t < m.size →
      body? m s t = some (body m s t) ∧ m.size ≤ (body m s t).size) :
    n.addLoop? s t skippable body? = some (n.addLoop s t skippable body) := by
  have hstates : s < (n.addStates 2).size := by
    rw [size_addStates]
    omega
  have haround : (n.around s).size = n.size + 2 := size_around
  obtain ⟨hinner, hsize⟩ := hbody (hn.around hs) (s := n.size) (t := n.size + 1) (by omega) (by omega)
  rw [addLoop?, addLoop, addEpsilon?_eq hstates]
  simp only [Option.bind_eq_bind, Option.bind_some]
  rw [hinner, Option.bind_some, addEpsilon?_eq (by omega), Option.bind_some,
    addEpsilon?_eq (by rw [size_addEpsilon]; omega), Option.bind_some]
  cases skippable with
  | false => rfl
  | true => exact addEpsilon?_eq (by rw [size_addEpsilon, size_addEpsilon]; omega)

mutual

theorem addExpr?_eq (e : Expr TermId) {n : Nfa} {s t : Nat} (hn : n.WellFormed) (hs : s < n.size) (ht : t < n.size) :
    addExpr? n e s t = some (addExpr n e s t) := by
  cases e with
  | term x => rw [addExpr?, addExpr, addEdge?_eq hs]
  | seq items =>
    rw [addExpr?, addExpr]
    exact addItems?_eq items (hn.addStates _) hs ht (Nat.le_of_eq (size_addStates n _).symm)
  | alt branches =>
    rw [addExpr?, addExpr]
    exact addBranches?_eq branches hn hs ht
  | star inner =>
    rw [addExpr?, addExpr]
    exact addLoop?_eq hn hs fun hm hs ht => ⟨addExpr?_eq inner hm hs ht, (fragment_addExpr inner hm hs ht).size_le⟩
  | plus inner =>
    rw [addExpr?, addExpr]
    exact addLoop?_eq hn hs fun hm hs ht => ⟨addExpr?_eq inner hm hs ht, (fragment_addExpr inner hm hs ht).size_le⟩
  | optional inner =>
    rw [addExpr?, addExpr, addExpr?_eq inner hn hs ht, Option.bind_some]
    exact addEpsilon?_eq (hs.trans_le (fragment_addExpr inner hn hs ht).size_le)

theorem addItems?_eq (es : List (Expr TermId)) {n : Nfa} {s b t : Nat} (hn : n.WellFormed) (hs : s < b) (ht : t < b)
    (hb : b + (es.length - 1) ≤ n.size) : addItems? n es s b t = some (addItems n es s b t) := by
  match es with
  | [] => exact addEpsilon?_eq (hs.trans_le hb)
  | [e] => exact addExpr?_eq e hn (hs.trans_le hb) (ht.trans_le hb)
  | e :: e' :: es =>
    simp only [List.length_cons, Nat.add_sub_cancel] at hb
    have hfirst := fragment_addExpr e hn (s := s) (t := b) (by omega) (by omega)
    have hsize := hfirst.size_le
    rw [addItems?, addItems, addExpr?_eq e hn (by omega) (by omega), Option.bind_some]
    · apply addItems?_eq (e' :: es) hfirst.wellFormed (by omega) (by omega)
      simp only [List.length_cons, Nat.add_sub_cancel]
      omega
    · simp
    · simp

theorem addBranches?_eq (es : List (Expr TermId)) {n : Nfa} {s t : Nat} (hn : n.WellFormed) (hs : s < n.size)
    (ht : t < n.size) : addBranches? n es s t = some (addBranches n es s t) := by
  cases es with
  | nil => rfl
  | cons e es =>
    have hfirst := fragment_addExpr e hn hs ht
    rw [addBranches?, addBranches, addExpr?_eq e hn hs ht, Option.bind_some]
    exact addBranches?_eq es hfirst.wellFormed (hs.trans_le hfirst.size_le) (ht.trans_le hfirst.size_le)

end

theorem ofExpr?_eq (e : Expr TermId) : ofExpr? e = some (ofExpr e) :=
  addExpr?_eq e wellFormed_initial wellFormed_initial.start_lt wellFormed_initial.accept_lt

def leaving? (n : Nfa) (s : StateSet) : Option (List (TermId × StateId)) :=
  (s.toList.mapM fun i => (n.states[i]?).map (·.edges)).map List.flatten

def anyFinal? (n : Nfa) (s : StateSet) : Option Bool :=
  (s.toList.mapM fun i => (n.states[i]?).map (·.isFinal)).map (·.any id)

variable {core : StateSet}

theorem leaving?_eq (hcore : ∀ i ∈ core, i < n.size) : n.leaving? core = some (n.leaving core) := by
  have hlookup : ∀ i ∈ core.toList, (n.states[i]?).map (·.edges) = some (n.edges i) := by
    intro i hi
    rw [edges, Array.getElem?_eq_getElem (hcore i (StateSet.mem_toList.mp hi))]
    rfl
  rw [leaving?, mapM_eq_some_map hlookup, Option.map_some, leaving, List.flatMap]

theorem anyFinal?_eq (hcore : ∀ i ∈ core, i < n.size) : n.anyFinal? core = some (n.anyFinal core) := by
  have hlookup : ∀ i ∈ core.toList, (n.states[i]?).map (·.isFinal) = some (n.isFinal i) := by
    intro i hi
    rw [isFinal, Array.getElem?_eq_getElem (hcore i (StateSet.mem_toList.mp hi))]
    rfl
  rw [anyFinal?, mapM_eq_some_map hlookup, Option.map_some, anyFinal, List.any_map]
  rfl

end Nfa

namespace Subsets

def place? (limit : Option Nat) (n : Nfa) (cores : Array StateSet) (states : Array DfaState) (seed : List StateId) :
    Option (Except StateLimitExceeded (Array StateSet × Array DfaState × StateId)) :=
  (n.closure? seed).bind fun core =>
    match number limit cores core with
    | .error e => some (.error e)
    | .ok (cores', i) =>
        if i < cores.size then some (.ok (cores', states, i))
        else (n.anyFinal? core).map fun isFinal => .ok (cores', states.push (.fresh isFinal), i)

def insertAt? (states : Array DfaState) (i : StateId) (t : TermId) (target : StateId) : Option (Array DfaState) :=
  if h : i < states.size then some (states.set i (states[i].insert t target)) else none

def fill? (limit : Option Nat) (n : Nfa) (i : StateId) (edges : List (TermId × StateId)) :
    List TermId → Array StateSet → Array DfaState →
      Option (Except StateLimitExceeded (Array StateSet × Array DfaState))
  | [], cores, states => some (.ok (cores, states))
  | t :: ts, cores, states =>
      (place? limit n cores states ((edges.filter (·.1 = t)).map (·.2))).bind fun
        | .error e => some (.error e)
        | .ok (cores, states, target) => (insertAt? states i t target).bind (fill? limit n i edges ts cores)

def construct? (limit : Option Nat) (n : Nfa) :
    Nat → StateId → Array StateSet → Array DfaState → Option (Except StateLimitExceeded Subsets)
  | rounds, next, cores, states =>
      match cores[next]? with
      | none => some (.ok ⟨cores, ⟨states⟩⟩)
      | some core =>
          match rounds with
          | 0 => none
          | rounds + 1 =>
              (n.leaving? core).bind fun edges =>
                (fill? limit n next edges ((edges.map (·.1)).eraseDups) cores states).bind fun
                  | .error e => some (.error e)
                  | .ok (cores, states) => construct? limit n rounds (next + 1) cores states

end Subsets

def Nfa.determinize? (limit : Option Nat) (n : Nfa) : Option (Except StateLimitExceeded Subsets) :=
  (Subsets.place? limit n #[] #[] [Nfa.start]).bind fun
    | .error e => some (.error e)
    | .ok (cores, states, _) => Subsets.construct? limit n (Nat.pow 2 n.size) 0 cores states

namespace Subsets

open Nfa (start)

def padded (n : Nfa) (cores : Array StateSet) (done : Array DfaState) : Array DfaState :=
  done ++ ((cores.toList.drop done.size).map fun core => DfaState.fresh (n.anyFinal core)).toArray

variable {limit : Option Nat} {n : Nfa} {core : StateSet} {cores : Array StateSet} {done : Array DfaState}
  {state : DfaState} {seed : List StateId}

theorem padded_push_core (h : done.size ≤ cores.size) (core : StateSet) :
    padded n (cores.push core) done = (padded n cores done).push (.fresh (n.anyFinal core)) := by
  have hdrop : (cores.push core).toList.drop done.size = cores.toList.drop done.size ++ [core] := by
    rw [Array.toList_push, List.drop_append_of_le_length (by simpa using h)]
  apply Array.toList_inj.mp
  rw [padded, padded, hdrop]
  simp

theorem padded_push_state (h : cores[done.size]? = some core) :
    padded n cores done = padded n cores (done.push (.fresh (n.anyFinal core))) := by
  have hlt := (Array.getElem?_eq_some_iff.mp h).1
  have hdrop : cores.toList.drop done.size = core :: cores.toList.drop (done.size + 1) := by
    rw [List.drop_eq_getElem_cons (by simpa using hlt), Array.getElem_toList, (Array.getElem?_eq_some_iff.mp h).2]
  apply Array.toList_inj.mp
  simp [padded, hdrop]

theorem padded_of_size_eq (h : cores.size = done.size) : padded n cores done = done := by
  have hdrop : cores.toList.drop done.size = [] := List.drop_of_length_le (by simp [h])
  simp [padded, hdrop]

theorem insertAt?_padded (t : TermId) (target : StateId) :
    insertAt? (padded n cores (done.push state)) done.size t target =
      some (padded n cores (done.push (state.insert t target))) := by
  have hlt : done.size < (padded n cores (done.push state)).size := by
    simp only [padded, Array.size_append, Array.size_push]
    omega
  rw [insertAt?, dif_pos hlt]
  congr 1
  apply Array.toList_inj.mp
  simp [padded]

theorem place?_eq (limit : Option Nat) (hn : n.WellFormed) (hseed : ∀ i ∈ seed, i < n.size) (hdone : done.size ≤ cores.size) :
    place? limit n cores (padded n cores done) seed =
      some ((number limit cores (n.closure seed)).map fun r => (r.1, padded n r.1 done, r.2)) := by
  rw [place?, Nfa.closure?_eq_some_closure hn hseed, Option.bind_some]
  cases hnumber : number limit cores (n.closure seed) with
  | error e => rfl
  | ok r =>
    obtain ⟨cores', i⟩ := r
    rcases number_cases hnumber with ⟨rfl, hi⟩ | ⟨rfl, rfl, _⟩
    · exact if_pos (Array.getElem?_eq_some_iff.mp hi).1
    · have hmembers : ∀ j ∈ n.closure seed, j < n.size := fun _ => Nfa.lt_size_of_mem_closure hn hseed
      simp only [Nat.lt_irrefl, if_false, Nfa.anyFinal?_eq hmembers, Option.map_some, Except.map, padded_push_core hdone]

theorem fill?_eq (limit : Option Nat) (hn : n.WellFormed) (core : StateSet) (ts : List TermId) (state : DfaState)
    (hdone : done.size < cores.size) :
    fill? limit n done.size (n.leaving core) ts cores (padded n cores (done.push state)) =
      some ((addEdges limit n core ts cores state).map fun r => (r.1, padded n r.1 (done.push r.2))) := by
  induction ts generalizing cores state with
  | nil => rfl
  | cons t ts ih =>
    have hsize : (done.push state).size ≤ cores.size := by
      rw [Array.size_push]
      exact hdone
    have hplace := place?_eq limit hn (fun _ => Nfa.lt_size_of_mem_targets hn (s := core) (t := t)) hsize
    rw [Nfa.targets] at hplace
    rw [fill?, hplace, Option.bind_some, addEdges, Nfa.advance, Nfa.targets]
    cases hnumber : number limit cores (n.closure (((n.leaving core).filter (·.1 = t)).map (·.2))) with
    | error e => rfl
    | ok r =>
      obtain ⟨cores', j⟩ := r
      have hgrown : done.size < cores'.size := by
        have hkept := (grown_number hnumber).kept (Array.getElem?_eq_getElem hdone)
        exact (Array.getElem?_eq_some_iff.mp hkept).1
      simp only [Except.map, insertAt?_padded, Option.bind_some]
      exact ih _ hgrown

theorem Progress.lt_size_of_mem (hn : n.WellFormed) (h : Progress n cores done) {j : StateId}
    (hcore : core ∈ cores.toList) (hj : j ∈ core) : j < n.size := by
  obtain ⟨_, w, rfl⟩ := h.traced hcore
  exact hn.path_lt hn.start_lt ((Nfa.mem_simulate_iff hn).mp hj)

theorem construct?_eq (hn : n.WellFormed) {rounds : Nat} (h : Progress n cores done)
    (hrounds : Nat.pow 2 n.size ≤ rounds + done.size + 1) :
    construct? limit n rounds done.size cores (padded n cores done) = some (build limit n rounds cores done) := by
  induction rounds generalizing cores done with
  | zero =>
    have hcores := h.size_cores_lt hn
    have hsize : cores.size = done.size := Nat.le_antisymm (by omega) h.size_le
    rw [construct?, Array.getElem?_eq_none (Nat.le_of_eq hsize), padded_of_size_eq hsize, build]
  | succ rounds ih =>
    rw [construct?, build]
    cases hcore : cores[done.size]? with
    | none =>
      have hsize := Nat.le_antisymm (Array.getElem?_eq_none_iff.mp hcore) h.size_le
      simp only [padded_of_size_eq hsize]
    | some core =>
      have hmem : core ∈ cores.toList := Array.mem_toList_iff.mpr (Array.mem_of_getElem? hcore)
      have hfill := fill?_eq limit hn core (n.terms core) (.fresh (n.anyFinal core)) (Array.getElem?_eq_some_iff.mp hcore).1
      rw [Nfa.terms] at hfill
      simp only [Nfa.leaving?_eq fun _ => h.lt_size_of_mem hn hmem, Option.bind_some, padded_push_state hcore, hfill, Nfa.terms]
      cases hadd : addEdges limit n core (((n.leaving core).map (·.1)).eraseDups) cores (.fresh (n.anyFinal core)) with
      | error e => rfl
      | ok r =>
        obtain ⟨cores', state⟩ := r
        have hsize : (done.push state).size = done.size + 1 := Array.size_push state
        have hnext := ih (h.step hn hcore hadd) (by omega)
        rw [hsize] at hnext
        exact hnext

end Subsets

theorem Nfa.determinize?_eq {n : Nfa} (hn : n.WellFormed) (limit : Option Nat) :
    n.determinize? limit = some (n.determinize limit) := by
  have hseed : ∀ i ∈ [start], i < n.size := by simpa using hn.start_lt
  have hnone : (#[] : Array DfaState).size ≤ (#[] : Array StateSet).size := Nat.le_refl 0
  have hplace := Subsets.place?_eq limit hn hseed hnone
  rw [determinize?, determinize]
  rw [Subsets.padded_of_size_eq rfl] at hplace
  rw [hplace, Option.bind_some]
  cases hnumber : Subsets.number limit #[] (n.closure [start]) with
  | error e => rfl
  | ok r => exact Subsets.construct?_eq hn (Subsets.progress_initial hn hnumber) (Nat.le_succ _)

end CallGrammar
