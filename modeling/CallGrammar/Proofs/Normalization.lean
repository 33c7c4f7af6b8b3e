import CallGrammar.Proofs.Compiled
import CallGrammar.Proofs.Descent
import CallGrammar.Proofs.Limit
import CallGrammar.Proofs.Spelling

namespace CallGrammar

open CallGrammar.Expr (number normalAt)
open String (utf8Len)

variable {source : String} {p q : Parsed}

def Parsed.expr (p : Parsed) : Expr Term := p.root.map (·.term)

structure Parsed.Alike (p q : Parsed) : Prop where
  expr_eq : q.expr = p.expr
  ids_eq : q.root.map (·.id) = p.root.map (·.id)
  terms_eq : q.terms = p.terms

inductive SameOutcome (limits : Limits) :
    Option (Except CompileError Grammar) → Option (Except CompileError Grammar) → Prop where
  | compiled {g g' : Grammar} : g'.nfa = g.nfa → g'.cores = g.cores → g'.dfa = g.dfa →
      SameOutcome limits (some (.ok g)) (some (.ok g'))
  | tooDeep : SameOutcome limits (some (.error .recursionLimitExceeded)) (some (.error .recursionLimitExceeded))
  | tooLarge : SameOutcome limits (some (.error (.stateLimitExceeded limits.states)))
      (some (.error (.stateLimitExceeded limits.states)))

theorem Grammar.compile?_eq (hsize : source.utf8ByteSize < UInt32.size) (limits : Limits) :
    compile? limits source = some (compile limits source) := by
  rw [compile?, parse?_eq hsize, Option.map_some]
  cases h : parse (some limits.recursion) source with
  | error e => rw [compile_of_parse_error h]
  | ok p =>
    rw [compile_of_parse_ok h, Parsed.nfa]
    simp only
    cases (Nfa.ofExpr (p.root.map (·.id))).determinize (some limits.states) <;> rfl

theorem compile_of_parse (h : parse none source = .ok p) (limits : Limits) : Grammar.compile limits source =
    if p.root.depth ≤ limits.recursion + 1 then
      match p.nfa.determinize (some limits.states) with
      | .ok subsets => .ok ⟨source, p.root, p.terms, p.nfa, subsets⟩
      | .error e => .error (.stateLimitExceeded e.limit)
    else .error .recursionLimitExceeded := by
  rw [parse] at h
  obtain ⟨branches, hread, hnumber⟩ := parseTokens_eq_ok_iff.mp h
  have hdepth : p.root.depth = Expr.depthAll branches + 1 := by
    have hmentions := congrArg Expr.depth (Expr.map_mention_number .empty (.alt branches))
    rwa [Expr.depth_map, hnumber] at hmentions
  have hlimited := parseTokens_some_of_reads limits.recursion (endOffset source) hread
  rw [h] at hlimited
  rw [hdepth]
  simp only [Nat.add_le_add_iff_right]
  by_cases hwithin : Expr.depthAll branches ≤ limits.recursion
  · rw [if_pos hwithin] at hlimited ⊢
    exact Grammar.compile_of_parse_ok hlimited
  · rw [if_neg hwithin] at hlimited ⊢
    exact Grammar.compile_of_parse_error hlimited

theorem compile_cases_of_ids {text : String} (hp : parse none source = .ok p) (hq : parse none text = .ok q)
    (hids : q.root.map (·.id) = p.root.map (·.id)) (limits : Limits) :
    (∃ nfa subsets, Grammar.compile limits source = .ok ⟨source, p.root, p.terms, nfa, subsets⟩ ∧
      Grammar.compile limits text = .ok ⟨text, q.root, q.terms, nfa, subsets⟩) ∨
    ∃ e, (e = .recursionLimitExceeded ∨ e = .stateLimitExceeded limits.states) ∧
      Grammar.compile limits source = .error e ∧ Grammar.compile limits text = .error e := by
  have hdepth := congrArg Expr.depth hids
  rw [Expr.depth_map, Expr.depth_map] at hdepth
  have hnfa : q.nfa = p.nfa := congrArg Nfa.ofExpr hids
  rw [compile_of_parse hp, compile_of_parse hq, hdepth, hnfa]
  by_cases hwithin : p.root.depth ≤ limits.recursion + 1
  · rw [if_pos hwithin, if_pos hwithin]
    cases hsubsets : p.nfa.determinize (some limits.states) with
    | ok subsets => exact .inl ⟨_, subsets, rfl, rfl⟩
    | error e =>
      obtain rfl := Subsets.determinize_eq_error hsubsets
      exact .inr ⟨_, .inr rfl, rfl, rfl⟩
  · rw [if_neg hwithin, if_neg hwithin]
    exact .inr ⟨_, .inl rfl, rfl, rfl⟩

theorem sameOutcome_of_alike {text : String} (hsource : source.utf8ByteSize < UInt32.size)
    (htext : text.utf8ByteSize < UInt32.size) (hp : parse none source = .ok p) (hq : parse none text = .ok q)
    (h : p.Alike q) (limits : Limits) :
    SameOutcome limits (Grammar.compile? limits source) (Grammar.compile? limits text) := by
  rw [Grammar.compile?_eq hsource, Grammar.compile?_eq htext]
  rcases compile_cases_of_ids hp hq h.ids_eq limits with ⟨nfa, subsets, hcompile, hcompile'⟩ |
    ⟨e, rfl | rfl, hcompile, hcompile'⟩ <;> rw [hcompile, hcompile']
  · exact .compiled rfl rfl rfl
  · exact .tooDeep
  · exact .tooLarge

theorem Phrase.Shows.exists_branches {phrase : Phrase} {e : Expr Term} (h : phrase.Shows .top e) :
    ∃ branches, phrase = .alternation branches ∧ (Expr.alt branches).map (·.term) = e := by
  cases h
  exact ⟨_, rfl, rfl⟩

theorem exists_parse_print {e : Expr Term} (hsize : e.print.utf8ByteSize < UInt32.size) (he : e.Full)
    (h : ∀ t ∈ e.leaves, t.Writable) : ∃ branches, (Expr.alt branches).map (·.term) = normalAt .top e ∧
      parse none e.print = .ok ⟨(number .empty (.alt branches)).2, (number .empty (.alt branches)).1⟩ := by
  obtain ⟨phrase, ts, hshows, hread, hlex⟩ := spelled_printAt he h .top 0
  obtain ⟨branches, rfl, hbranches⟩ := hshows.exists_branches
  have hlexed : lex e.print = ts := lex_of_lexes hsize hlex
  refine ⟨branches, hbranches, ?_⟩
  rw [parse, hlexed]
  exact parseTokens_of_reads hread

theorem Parsed.expr_of_number {e : Expr Mention} (h : number .empty e = (p.terms, p.root)) : p.expr = e.map (·.term) := by
  rw [← Expr.map_term_number .empty, h]
  rfl

theorem exists_alike_of_parse (hsource : source.utf8ByteSize < UInt32.size) (h : parse none source = .ok p)
    (hprint : p.expr.print.utf8ByteSize < UInt32.size) : ∃ q, parse none p.expr.print = .ok q ∧ p.Alike q := by
  rw [parse] at h
  obtain ⟨branches, hread, hnumber⟩ := parseTokens_eq_ok_iff.mp h
  have hexpr : p.expr = (Expr.alt branches).map (·.term) := Parsed.expr_of_number hnumber
  have hfull : p.expr.Full := by
    rw [hexpr, Expr.full_map_iff]
    exact .alt hread.full.1 hread.full.2
  have hwritable : ∀ t ∈ p.expr.leaves, t.Writable := by
    rw [hexpr, Expr.leaves_map]
    exact List.forall_mem_map.mpr
      (hread.writable fun t ht hkind => (standsIn_of_mem_lex hsource ht).isWord hkind)
  obtain ⟨branches', hbranches', hparse⟩ := exists_parse_print hprint hfull hwritable
  have hnormal : normalAt .top p.expr = p.expr := by
    rw [hexpr]
    exact congrArg Expr.alt hread.normal
  rw [hnormal, hexpr] at hbranches'
  obtain ⟨hterms, hids⟩ := Expr.number_congr hbranches' .empty
  rw [hnumber] at hterms hids
  refine ⟨_, hparse, ?_, hids, hterms⟩
  rw [hexpr, ← hbranches']
  exact Expr.map_term_number .empty _

theorem parse_of_parse? {limit : Option Nat} {answer : Except ParseError Parsed}
    (hsize : source.utf8ByteSize < UInt32.size) (h : parse? limit source = some answer) : parse limit source = answer :=
  Option.some.inj ((parse?_eq hsize limit).symm.trans h)

theorem lexes_beyond_size : Lexer.Lexes 0 (List.replicate UInt32.size ' ' ++ ['a'])
    [⟨.ident, ⟨UInt32.size, UInt32.size + 1⟩, "a"⟩] := by
  have hspaces : utf8Len (List.replicate UInt32.size ' ') = UInt32.size := by
    rw [utf8Len_replicate]
    exact Nat.mul_one _
  have hword := Lexer.lexes_word (by decide : IsWord "a") UInt32.size
  refine Lexer.Lexes.blanks (fun c hc => ?_) ?_
  · rw [List.eq_of_mem_replicate hc]
    rfl
  · rw [hspaces, Nat.zero_add]
    exact hword

theorem lex?_beyond_size (h : source.toList = List.replicate UInt32.size ' ' ++ ['a']) :
    lex? source = some [⟨.ident, ⟨0, 1⟩, " "⟩] ∧ Located source [⟨.ident, ⟨0, 1⟩, " "⟩] ∧ endOffset source = 1 := by
  have htokens := Lexer.tokens_of_lexes (h ▸ lexes_beyond_size)
  have hparts : source.toList = [] ++ [' '] ++ (List.replicate (UInt32.size - 1) ' ' ++ ['a']) := by
    rw [h, List.nil_append, ← List.append_assoc]
    congr 1
  have hslice : Span.slice ⟨0, 1⟩ source = " " := Span.slice_eq hparts
  have hinText : Span.InText ⟨0, 1⟩ source :=
    ⟨by decide, isValid_of_toList_eq (List.nil_append _).symm, isValid_of_toList_eq hparts⟩
  have hlex : lex source = [⟨.ident, ⟨0, 1⟩, " "⟩] := by
    rw [lex, htokens, List.map_singleton, ← hslice]
    rfl
  refine ⟨?_, ⟨by simp [Span.slice?, hinText, hslice], fun hplace _ _ _ => ?_⟩, ?_⟩
  · rw [lex?, htokens, hlex]
    rfl
  · exact absurd hplace.length_le (by simp)
  · rw [endOffset, ← String.ofList_toList (s := source), String.utf8ByteSize_ofList, hparts, String.utf8Len_append,
      String.utf8Len_append, String.utf8Len_append, utf8Len_replicate]
    rfl

theorem normalization_lossy_beyond_size : ∃ source p, source.toList = List.replicate UInt32.size ' ' ++ ['a'] ∧
    parse? none source = some (.ok p) ∧ p.root.leaves.map (·.term) = [.plain " "] ∧
    p.expr.print = " " ∧ ∃ e, parse? none p.expr.print = some (.error e) := by
  obtain ⟨source, hsource⟩ : ∃ source : String, source.toList = List.replicate UInt32.size ' ' ++ ['a'] :=
    ⟨String.ofList _, String.toList_ofList⟩
  obtain ⟨hlex, hlocated, hstop⟩ := lex?_beyond_size hsource
  have hread : (parseTokens none 1 [⟨.ident, ⟨0, 1⟩, " "⟩]).toOption.any
      (fun p => p.root.leaves.map (·.term) = [.plain " "] ∧ p.expr.print = " ") = true := by decide +kernel
  obtain ⟨p, hp, hshape⟩ := exists_ok_of_any hread
  obtain ⟨hterms, hprint⟩ := of_decide_eq_true hshape
  refine ⟨source, p, hsource, ?_, hterms, hprint, ?_⟩
  · rw [parse?, hlex, Option.bind_some, parseTokens?_eq hlocated, hstop, hp]
  · rw [hprint]
    exact ⟨_, (parse?_eq (by decide +kernel) none).trans rfl⟩

end CallGrammar
