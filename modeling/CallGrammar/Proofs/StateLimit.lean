import CallGrammar.Proofs.Building
import CallGrammar.Proofs.Compiled
import CallGrammar.Proofs.Limit
import Mathlib.Algebra.Group.Nat.Defs

namespace CallGrammar

open Nfa (start)

namespace Subsets

variable {k rounds : Nat} {limit : Option Nat} {n : Nfa} {core : StateSet} {cores cores' : Array StateSet} {i : StateId}
  {ts : List TermId} {state state' : DfaState} {states : Array DfaState} {r : Subsets}

def within {α : Type} (k size : Nat) (answer : α) : Except StateLimitExceeded α :=
  if size ≤ k then .ok answer else .error ⟨k⟩

theorem size_le_of_number (h : number limit cores core = .ok (cores', i)) : cores.size ≤ cores'.size := by
  rcases number_cases h with ⟨rfl, _⟩ | ⟨rfl, _, _⟩
  · exact Nat.le_refl _
  · simp

theorem size_le_of_addEdges (h : addEdges limit n core ts cores state = .ok (cores', state')) :
    cores.size ≤ cores'.size := by
  induction ts generalizing cores state with
  | nil =>
    obtain ⟨rfl, rfl⟩ := Prod.mk.inj (Except.ok.inj h)
    exact Nat.le_refl _
  | cons t ts ih =>
    rw [addEdges] at h
    split at h
    · rename_i hnumber
      exact Nat.le_trans (size_le_of_number hnumber) (ih h)
    · cases h

theorem size_le_of_build (h : build limit n rounds cores states = .ok r) : cores.size ≤ r.cores.size := by
  induction rounds generalizing cores states with
  | zero =>
    obtain rfl := Except.ok.inj h
    exact Nat.le_refl _
  | succ rounds ih =>
    rw [build] at h
    split at h
    · obtain rfl := Except.ok.inj h
      exact Nat.le_refl _
    · split at h
      · rename_i hadd
        exact Nat.le_trans (size_le_of_addEdges hadd) (ih h)
      · cases h

theorem number_some (hcores : cores.size ≤ k) (h : number none cores core = .ok (cores', i)) :
    number (some k) cores core = within k cores'.size (cores', i) := by
  unfold number at h ⊢
  cases hfound : cores.idxOf? core with
  | some j =>
    rw [hfound] at h
    obtain ⟨rfl, rfl⟩ := Prod.mk.inj (Except.ok.inj h)
    simp [within, hcores]
  | none =>
    rw [hfound] at h
    obtain ⟨rfl, rfl⟩ := Prod.mk.inj (Except.ok.inj h)
    rw [within, Array.size_push]
    by_cases hk : k ≤ cores.size
    · rw [if_neg (by omega)]
      simp [hk]
    · rw [if_pos (by omega)]
      simp [hk]

theorem addEdges_some (hcores : cores.size ≤ k) (h : addEdges none n core ts cores state = .ok (cores', state')) :
    addEdges (some k) n core ts cores state = within k cores'.size (cores', state') := by
  induction ts generalizing cores state with
  | nil =>
    obtain ⟨rfl, rfl⟩ := Prod.mk.inj (Except.ok.inj h)
    rw [addEdges, within, if_pos hcores]
  | cons t ts ih =>
    rw [addEdges] at h
    split at h
    · rename_i middle target hnumber
      rw [addEdges, number_some hcores hnumber, within]
      by_cases hmiddle : middle.size ≤ k
      · rw [if_pos hmiddle]
        exact ih hmiddle h
      · have hsize := size_le_of_addEdges h
        rw [if_neg hmiddle, within, if_neg (by omega)]
    · cases h

theorem build_some (hcores : cores.size ≤ k) (h : build none n rounds cores states = .ok r) :
    build (some k) n rounds cores states = within k r.cores.size r := by
  induction rounds generalizing cores states with
  | zero =>
    obtain rfl := Except.ok.inj h
    rw [build, within, if_pos hcores]
  | succ rounds ih =>
    rw [build] at h ⊢
    split at h
    · rename_i hnone
      obtain rfl := Except.ok.inj h
      rw [within, if_pos hcores]
    · split at h
      · rename_i core hcore cores' state hadd
        simp only [addEdges_some hcores hadd]
        rw [within]
        by_cases hcores' : cores'.size ≤ k
        · rw [if_pos hcores']
          exact ih hcores' h
        · have hsize := size_le_of_build h
          rw [if_neg hcores', within, if_neg (by omega)]
      · cases h

theorem determinize_some (h : n.determinize none = .ok r) (k : Nat) : n.determinize (some k) = within k r.cores.size r := by
  rw [Nfa.determinize] at h ⊢
  split at h
  · rename_i cores i hnumber
    rw [number_some (Nat.zero_le k) hnumber, within]
    by_cases hcores : cores.size ≤ k
    · rw [if_pos hcores]
      exact build_some hcores h
    · have hsize := size_le_of_build h
      rw [if_neg hcores, within, if_neg (by omega)]
  · cases h

theorem number_empty (core : StateSet) : number none #[] core = .ok (#[core], 0) := by simp [number]

theorem build_succ_of_size_eq (h : build limit n rounds cores states = .ok r) (hr : r.cores.size = r.dfa.size) :
    build limit n (rounds + 1) cores states = .ok r := by
  induction rounds generalizing cores states with
  | zero =>
    obtain rfl := Except.ok.inj h
    have hnone : cores[states.size]? = none := Array.getElem?_eq_none_iff.mpr (Nat.le_of_eq hr)
    rw [build, hnone]
  | succ rounds ih =>
    rw [build] at h ⊢
    split at h
    · exact h
    · split at h
      · exact ih h
      · cases h

theorem build_eq_of_le (hn : n.WellFormed) (h : n.determinize none = .ok r) (hrounds : 2 ^ n.size - 1 ≤ rounds) :
    build none n rounds #[n.closure [start]] #[] = .ok r := by
  have hstart : Progress n #[n.closure [start]] #[] := progress_initial hn (number_empty _)
  obtain ⟨r', hr'⟩ := exists_build_none n (2 ^ n.size - 1) #[n.closure [start]] #[]
  have hsize : r'.cores.size = r'.dfa.size := (finished_build hn hstart (Nat.le_add_of_sub_le (Nat.le_refl _)) hr').size_eq
  have hmore : ∀ rounds, 2 ^ n.size - 1 ≤ rounds → build none n rounds #[n.closure [start]] #[] = .ok r' := by
    intro rounds hrounds
    induction rounds, hrounds using Nat.le_induction with
    | base => exact hr'
    | succ rounds _ ih => exact build_succ_of_size_eq ih hsize
  have hfull : build none n (Nat.pow 2 n.size) #[n.closure [start]] #[] = .ok r := by
    rwa [Nfa.determinize, number_empty] at h
  obtain rfl : r = r' := Except.ok.inj (hfull.symm.trans (hmore _ (Nat.sub_le _ _)))
  exact hmore rounds hrounds

structure Bounds (n : Nfa) (r : Subsets) : Prop where
  unlimited : n.determinize none = .ok r
  checked (limit : Option Nat) : n.determinize? limit = some (n.determinize limit)
  size_le : r.dfa.size ≤ 2 ^ n.size - 1
  size_eq : r.cores.size = r.dfa.size
  rounds {rounds : Nat} : 2 ^ n.size - 1 ≤ rounds → build none n rounds #[n.closure [start]] #[] = .ok r
  limited (k : Nat) : n.determinize (some k) = if r.dfa.size ≤ k then .ok r else .error ⟨k⟩

theorem exists_bounds (hn : n.WellFormed) : ∃ r, Bounds n r := by
  obtain ⟨r, hr⟩ := exists_determinize_none n
  have hfinished := finished_determinize hn hr
  have hlt : r.cores.size < 2 ^ n.size := hfinished.toProgress.size_cores_lt hn
  refine ⟨r, hr, Nfa.determinize?_eq hn, ?_, hfinished.size_eq, build_eq_of_le hn hr, fun k => ?_⟩
  · rw [← hfinished.size_eq]
    exact Nat.le_sub_one_of_lt hlt
  · rw [← hfinished.size_eq]
    exact determinize_some hr k

end Subsets

open Subsets (Bounds exists_bounds)

theorem parseTokens_some_mono {k k' stop : Nat} {ts : List Token} {p : Parsed} (h : parseTokens (some k) stop ts = .ok p)
    (hk : k ≤ k') : parseTokens (some k') stop ts = .ok p := by
  have hnone := parseTokens_none h
  obtain ⟨branches, hread, _⟩ := parseTokens_eq_ok_iff.mp hnone
  rw [parseTokens_some_of_reads k stop hread] at h
  split at h
  · rename_i hdepth
    rw [parseTokens_some_of_reads k' stop hread, if_pos (Nat.le_trans hdepth hk), hnone]
  · cases h

namespace Grammar

variable {source : String} {limits limits' : Limits} {g g' : Grammar} {k : Nat}

theorem compile_cases (limits : Limits) (source : String) :
    (∃ e, parse (some limits.recursion) source = .error e ∧ compile limits source = .error e.compileError) ∨
    ∃ p r, parse (some limits.recursion) source = .ok p ∧ Bounds p.nfa r ∧ compile limits source =
      if r.dfa.size ≤ limits.states then .ok ⟨source, p.root, p.terms, p.nfa, r⟩
      else .error (.stateLimitExceeded limits.states) := by
  cases hparse : parse (some limits.recursion) source with
  | error e => exact .inl ⟨e, rfl, compile_of_parse_error hparse⟩
  | ok p =>
    obtain ⟨r, hr⟩ := exists_bounds p.wellFormed_nfa
    refine .inr ⟨p, r, rfl, hr, ?_⟩
    rw [compile_of_parse_ok hparse, hr.limited]
    by_cases hsize : r.dfa.size ≤ limits.states
    · rw [if_pos hsize, if_pos hsize]
    · rw [if_neg hsize, if_neg hsize]

theorem compile_eq_ok_iff : compile limits source = .ok g ↔ ∃ p r, parse (some limits.recursion) source = .ok p ∧
    p.nfa.determinize none = .ok r ∧ r.dfa.size ≤ limits.states ∧ g = ⟨source, p.root, p.terms, p.nfa, r⟩ := by
  rcases compile_cases limits source with ⟨e, hparse, hcompile⟩ | ⟨p, r, hparse, hr, hcompile⟩ <;> rw [hparse, hcompile]
  · simp
  · constructor
    · intro h
      split at h
      · rename_i hsize
        exact ⟨p, r, rfl, hr.unlimited, hsize, (Except.ok.inj h).symm⟩
      · cases h
    · rintro ⟨p', r', hp, hr', hsize, rfl⟩
      obtain rfl := Except.ok.inj hp
      obtain rfl := Except.ok.inj (hr.unlimited.symm.trans hr')
      rw [if_pos hsize]

theorem compile_mono (h : compile limits source = .ok g) (hrecursion : limits.recursion ≤ limits'.recursion)
    (hstates : limits.states ≤ limits'.states) : compile limits' source = .ok g := by
  obtain ⟨p, r, hparse, hr, hsize, hg⟩ := compile_eq_ok_iff.mp h
  exact compile_eq_ok_iff.mpr ⟨p, r, parseTokens_some_mono hparse hrecursion, hr, Nat.le_trans hsize hstates, hg⟩

theorem compile_unique (h : compile limits source = .ok g) (h' : compile limits' source = .ok g') : g' = g := by
  obtain ⟨p, r, hparse, hr, _, rfl⟩ := compile_eq_ok_iff.mp h
  obtain ⟨p', r', hparse', hr', _, rfl⟩ := compile_eq_ok_iff.mp h'
  obtain rfl := Except.ok.inj ((parseTokens_none hparse).symm.trans (parseTokens_none hparse'))
  obtain rfl := Except.ok.inj (hr.symm.trans hr')
  rfl

theorem exists_parse_of_stateLimitExceeded (h : compile limits source = .error (.stateLimitExceeded k)) :
    k = limits.states ∧ ∃ p, parse (some limits.recursion) source = .ok p := by
  rcases compile_cases limits source with ⟨e, _, hcompile⟩ | ⟨p, r, hparse, _, hcompile⟩ <;> rw [hcompile] at h
  · cases e <;> cases h
  · split at h
    · cases h
    · exact ⟨(CompileError.stateLimitExceeded.inj (Except.error.inj h)).symm, p, hparse⟩

structure OnlyRefused (source : String) : Prop where
  ok_iff {limits : Limits} {g : Grammar} : compile limits source = .ok g ↔
    ∃ p r, parse (some limits.recursion) source = .ok p ∧ p.nfa.determinize none = .ok r ∧ r.dfa.size ≤ limits.states ∧
      g = ⟨source, p.root, p.terms, p.nfa, r⟩
  unique {limits limits' : Limits} {g g' : Grammar} :
    compile limits source = .ok g → compile limits' source = .ok g' → g' = g
  mono {limits limits' : Limits} {g : Grammar} : compile limits source = .ok g → limits.recursion ≤ limits'.recursion →
    limits.states ≤ limits'.states → compile limits' source = .ok g
  parsed {limits : Limits} {k : Nat} : compile limits source = .error (.stateLimitExceeded k) →
    k = limits.states ∧ ∃ p, parse (some limits.recursion) source = .ok p

end Grammar

theorem state_limit_exact {n : Nfa} (hn : n.WellFormed) : (∃ r, Bounds n r) ∧ ∀ source, Grammar.OnlyRefused source :=
  ⟨exists_bounds hn, fun _ => ⟨Grammar.compile_eq_ok_iff, Grammar.compile_unique, Grammar.compile_mono,
    Grammar.exists_parse_of_stateLimitExceeded⟩⟩

def sharedStart : Expr TermId := .star (.alt [.seq [.term 0, .term 0], .seq [.term 0, .term 1]])

theorem state_limit_of_sharedStart : (Nfa.ofExpr sharedStart).WellFormed ∧
    (∃ r, Bounds (Nfa.ofExpr sharedStart) r ∧ r.dfa.size = 3 ∧
      (Nfa.ofExpr sharedStart).determinize (some 3) = .ok r ∧ (Nfa.ofExpr sharedStart).determinize (some 2) = .error ⟨2⟩) ∧
    Grammar.OnlyRefused "(a a | a b)*" := by
  have hn := Nfa.wellFormed_ofExpr sharedStart
  obtain ⟨⟨r, hr⟩, htexts⟩ := state_limit_exact hn
  have hsize : ((Nfa.ofExpr sharedStart).determinize none).toOption.map (·.dfa.size) = some 3 := by decide +kernel
  rw [hr.unlimited] at hsize
  have hthree : r.dfa.size = 3 := Option.some.inj hsize
  refine ⟨hn, ⟨r, hr, hthree, ?_, ?_⟩, htexts _⟩
  · rw [hr.limited, hthree, if_pos (Nat.le_refl 3)]
  · rw [hr.limited, hthree, if_neg (by decide)]

end CallGrammar
