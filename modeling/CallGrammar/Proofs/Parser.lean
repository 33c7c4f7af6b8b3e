import CallGrammar.Proofs.Descent
import CallGrammar.Proofs.Occurrences

namespace CallGrammar

namespace Parser.State

open CallGrammar.Expr (number numberAll numberAll_ne_nil)

variable {s s' : State} {t : Token} {ts us : List Token}

def After (s s' : State) : Phrase → Prop
  | .atom e => s'.settleName =
      { s.settle with terms := (number s.settle.terms e).1, pending := .atom (number s.settle.terms e).2 }
  | .item e => s'.settle =
      { s.settle with
        terms := (number s.settle.terms e).1
        current := s.settle.current.push (number s.settle.terms e).2 }
  | .sequence items => s'.settle =
      { s.settle with
        terms := (numberAll s.settle.terms items).1
        current := ⟨s.settle.current.done, (numberAll s.settle.terms items).2.reverse ++ s.settle.current.items⟩ }
  | .alternation branches => s.settle.current.items = [] →
      s'.settle.terms = (numberAll s.settle.terms branches).1 ∧ s'.settle.outer = s.settle.outer ∧
      s'.settle.current.items ≠ [] ∧
      s'.settle.current.expr = .alt (s.settle.current.done.reverse ++ (numberAll s.settle.terms branches).2)

theorem After.bare {e : Expr Mention} (hs : s.Between) (h : After s s' (.atom e)) : After s s' (.item e) := by
  simp only [After] at h ⊢
  rw [settle, h]
  simp [settleAtom, pending_settle hs]

theorem After.last {e : Expr Mention} (h : After s s' (.item e)) : After s s' (.sequence [e]) := by
  simp only [After] at h ⊢
  rw [h]
  rfl

theorem After.more {middle : State} {e : Expr Mention} {items : List (Expr Mention)} (h : After s middle (.item e))
    (hmore : After middle s' (.sequence items)) : After s s' (.sequence (e :: items)) := by
  simp only [After] at h hmore ⊢
  rw [hmore, h]
  simp [numberAll, Branches.push]

theorem After.branch {items : List (Expr Mention)} (h : After s s' (.sequence items)) (hitems : items ≠ []) :
    After s s' (.alternation [.seq items]) := by
  simp only [After] at h
  intro hempty
  rw [h]
  refine ⟨rfl, rfl, ?_, ?_⟩
  · simp [numberAll_ne_nil hitems]
  · simp [Branches.expr, hempty, numberAll, number]

theorem After.split {middle : State} {items branches : List (Expr Mention)} (h : After s middle (.sequence items))
    (hpending : middle.settle.pending = .nothing)
    (hsplit : After middle.settle.branched s' (.alternation branches)) :
    After s s' (.alternation (.seq items :: branches)) := by
  intro hempty
  have hself : middle.settle.branched.settle = middle.settle.branched := settle_eq_self hpending
  have hafter := hsplit (by rw [hself]; rfl)
  rw [hself] at hafter
  obtain ⟨hterms, houter, hitems, hexpr⟩ := hafter
  simp only [After] at h
  simp only [branched, h] at hterms houter hexpr
  refine ⟨hterms, houter, hitems, ?_⟩
  rw [hexpr]
  simp [Branches.split, hempty, numberAll, number]

def Takes (s : State) (ts : List Token) (p : Phrase) : Prop := ∃ s', run none s ts = .ok s' ∧ s'.Between ∧ After s s' p

theorem takes_name (hs : s.Between) (ht : t.kind = .ident) : Takes s [t] (.atom (.term ⟨.plain t.text, t.span⟩)) := by
  refine ⟨_, run_cons_of_step (step_ident hs ht) [], by simp [Between], ?_⟩
  simp [After, settleName, occur, number]

theorem takes_aliased {c a : Token} (hs : s.Between) (ht : t.kind = .ident) (hc : c.kind = .colon) (ha : a.kind = .ident) :
    Takes s [t, c, a] (.atom (.term ⟨⟨t.text, a.text⟩, t.span.cover a.span⟩)) := by
  have hcolon : ({ s.settle with pending := .name t } : State).step none c = .ok { s.settle with pending := .colon t } := by
    simp [step, hc]
  have halias : ({ s.settle with pending := .colon t } : State).step none a =
      .ok (s.settle.occur ⟨t.text, a.text⟩ (t.span.cover a.span)) := by
    simp [step, ha, occur]
  refine ⟨s.settle.occur ⟨t.text, a.text⟩ (t.span.cover a.span), ?_, by simp [Between, occur], ?_⟩
  · rw [run_cons_of_step (step_ident hs ht), run_cons_of_step hcolon, run_cons_of_step halias, run]
  · simp [After, settleName, occur, number]

theorem takes_group {o c : Token} {branches : List (Expr Mention)} (hs : s.Between) (ho : o.kind = .parenOpen)
    (hc : c.kind = .parenClose) (h : Takes (s.settle.entered o.span) ts (.alternation branches)) :
    Takes s (o :: (ts ++ [c])) (.atom (.alt branches)) := by
  have hpending : (s.settle.entered o.span).pending = .nothing := pending_settle hs
  obtain ⟨inner, hrun, hinner, hafter⟩ := h
  simp only [After, settle_eq_self hpending] at hafter
  obtain ⟨hterms, houter, hitems, hexpr⟩ := hafter rfl
  refine ⟨_, by rw [run_cons_of_step (step_open hs ho), run_append_of_run hrun,
    run_cons_of_step (step_close hinner hc hitems houter), run], by simp [Between], ?_⟩
  simp [After, settleName, hterms, hexpr, number, entered, Branches.empty]

theorem takes_quantified {e : Expr Mention} (q : Quantifier) (hs : s.Between) (ht : t.kind = q.kind)
    (h : Takes s ts (.atom e)) : Takes s (ts ++ [t]) (.item (q.wrap e)) := by
  obtain ⟨s', hrun, hs', hafter⟩ := h
  simp only [After] at hafter
  have hatom : s'.settleName.pending = .atom (number s.settle.terms e).2 := by rw [hafter]
  refine ⟨_, by rw [run_append_of_run hrun, run_cons_of_step (step_eq_quantified hs' hatom q ht), run],
    by simp [Between], ?_⟩
  simp only [After]
  rw [settle_eq_self rfl, hafter, Expr.number_wrap, pending_settle hs]

theorem takes_split {p : Token} {items branches : List (Expr Mention)} (hp : p.kind = .pipe) (hitems : items ≠ [])
    (h : Takes s ts (.sequence items)) (h' : ∀ s : State, s.Between → Takes s us (.alternation branches)) :
    Takes s (ts ++ p :: us) (.alternation (.seq items :: branches)) := by
  obtain ⟨middle, hrun, hmiddle, hafter⟩ := h
  have hsettled := hafter
  simp only [After] at hsettled
  have hcurrent : middle.settle.current.items ≠ [] := by
    rw [hsettled]
    simp [numberAll_ne_nil hitems]
  have hpending := pending_settle hmiddle
  obtain ⟨s', hrun', hs', hafter'⟩ := h' middle.settle.branched (by simp [Between, branched, hpending])
  refine ⟨s', ?_, hs', hafter.split hpending hafter'⟩
  rw [run_append_of_run hrun, run_cons_of_step (step_pipe hmiddle hp hcurrent), hrun']

theorem takes_of_reads {p : Phrase} (h : Reads p ts) (s : State) (hs : s.Between) : Takes s ts p := by
  induction h generalizing s with
  | name ht => exact takes_name hs ht
  | aliased ht hc ha => exact takes_aliased hs ht hc ha
  | @group o c ts branches ho hc _ ih =>
    have hpending : (s.settle.entered o.span).pending = .nothing := pending_settle hs
    exact takes_group hs ho hc (ih _ (by simp [Between, hpending]))
  | bare _ ih =>
    obtain ⟨s', hrun, hs', hafter⟩ := ih s hs
    exact ⟨s', hrun, hs', hafter.bare hs⟩
  | quantified q ht _ ih => exact takes_quantified q hs ht (ih s hs)
  | last _ ih =>
    obtain ⟨s', hrun, hs', hafter⟩ := ih s hs
    exact ⟨s', hrun, hs', hafter.last⟩
  | more _ _ ihe ihs =>
    obtain ⟨middle, hrun, hmiddle, hafter⟩ := ihe s hs
    obtain ⟨s', hrun', hs', hafter'⟩ := ihs middle hmiddle
    exact ⟨s', by rw [run_append_of_run hrun, hrun'], hs', hafter.more hafter'⟩
  | branch hread ih =>
    obtain ⟨s', hrun, hs', hafter⟩ := ih s hs
    exact ⟨s', hrun, hs', hafter.branch hread.items_ne_nil⟩
  | split hp hread _ ihs ihb => exact takes_split hp hread.items_ne_nil (ihs s hs) ihb

end Parser.State

namespace Parser

inductive Gathered : Branches → List TokenKind → Prop where
  | empty : Gathered .empty []
  | push {b : Branches} {e : Expr Occurrence} {u v : List TokenKind} :
      Gathered b u → Derives .item v → Gathered (b.push e) (u ++ v)
  | split {b : Branches} {u : List TokenKind} : b.items ≠ [] → Gathered b u → Gathered b.split (u ++ [.pipe])

inductive Enclosed : List (Span × Branches) → List TokenKind → Prop where
  | nil : Enclosed [] []
  | cons {outer : List (Span × Branches)} {opened : Span} {b : Branches} {u v : List TokenKind} :
      Enclosed outer u → Gathered b v → Enclosed ((opened, b) :: outer) (u ++ v ++ [.parenOpen])

inductive Begun : Pending → List TokenKind → Prop where
  | nothing : Begun .nothing []
  | name {t : Token} : Begun (.name t) [.ident]
  | colon {t : Token} : Begun (.colon t) [.ident, .colon]
  | atom {e : Expr Occurrence} {u : List TokenKind} : Derives .atom u → Begun (.atom e) u

def Held (s : State) (us : List TokenKind) : Prop :=
  ∃ u v w, Enclosed s.outer u ∧ Gathered s.current v ∧ Begun s.pending w ∧ us = u ++ v ++ w

variable {b : Branches} {u v us : List TokenKind} {s s' : State} {t : Token} {ts : List Token} {limit : Option Nat}

theorem derives_item_append (hu : Derives .item u) (hv : Derives .alternation v) : Derives .alternation (u ++ v) := by
  cases hv with
  | branch hseq => exact .branch (.more hu hseq)
  | split hseq halt =>
    rw [← List.append_assoc]
    exact .split (.more hu hseq) halt

theorem Gathered.derives_append (h : Gathered b u) : (∀ v, Derives .alternation v → Derives .alternation (u ++ v)) ∧
    (b.items ≠ [] → ∀ v, Derives .alternation v → Derives .alternation (u ++ .pipe :: v)) := by
  induction h with
  | empty => exact ⟨fun _ hv => hv, fun h => absurd rfl h⟩
  | push _ hitem ih =>
    refine ⟨fun v hv => ?_, fun _ v hv => ?_⟩
    · rw [List.append_assoc]
      exact ih.1 _ (derives_item_append hitem hv)
    · rw [List.append_assoc]
      exact ih.1 _ (.split (.last hitem) hv)
  | split hitems _ ih =>
    refine ⟨fun v hv => ?_, fun h => absurd rfl h⟩
    rw [List.append_assoc]
    exact ih.2 hitems v hv

theorem Gathered.derives (h : Gathered b u) (hb : b.items ≠ []) : Derives .alternation u := by
  cases h with
  | empty => exact absurd rfl hb
  | push h hitem => exact h.derives_append.1 _ (.branch (.last hitem))
  | split => exact absurd rfl hb

theorem Held.settleName (h : Held s us) : Held s.settleName us := by
  rw [State.settleName]
  split
  · rename_i name hpending
    obtain ⟨u, v, w, hu, hv, hw, rfl⟩ := h
    rw [hpending] at hw
    cases hw
    exact ⟨u, v, _, hu, hv, .atom .name, rfl⟩
  · exact h

theorem Held.settleAtom (h : Held s us) : Held s.settleAtom us := by
  rw [State.settleAtom]
  split
  · rename_i e hpending
    obtain ⟨u, v, w, hu, hv, hw, rfl⟩ := h
    rw [hpending] at hw
    cases hw with
    | atom hatom =>
      refine ⟨u, v ++ w, [], hu, hv.push (.bare hatom), .nothing, ?_⟩
      rw [List.append_nil, List.append_assoc]
  · exact h

theorem Held.settle (h : Held s us) : Held s.settle us := h.settleName.settleAtom

theorem Held.quantify (h : Held s us) {kind : TokenKind} (hs : s.quantify? kind = some s') : Held s' (us ++ [kind]) := by
  obtain ⟨q, e, rfl, hpending, rfl⟩ := State.quantify?_eq_some hs
  obtain ⟨u, v, w, hu, hv, hw, rfl⟩ := h
  rw [hpending] at hw
  cases hw with
  | atom hatom =>
    refine ⟨u, v ++ (w ++ [q.kind]), [], hu, hv.push (.quantified q hatom), .nothing, ?_⟩
    simp

theorem Held.begin (h : Held s us) (hpending : s.pending = .nothing) (hs : s.begin limit t = .ok s') :
    Held s' (us ++ [t.kind]) := by
  obtain ⟨u, v, w, hu, hv, hw, rfl⟩ := h
  rw [hpending] at hw
  cases hw
  rcases State.begin_cases hs with ⟨hkind, rfl⟩ | ⟨hkind, _, rfl⟩ | ⟨hkind, hitems, rfl⟩ |
    ⟨hkind, hitems, opened, enclosing, outer, houter, rfl⟩ <;> rw [hkind, List.append_nil]
  · exact ⟨u, v, _, hu, hv, .name, rfl⟩
  · refine ⟨u ++ v ++ [TokenKind.parenOpen], [], [], hu.cons hv, .empty, ?_, by simp⟩
    rw [State.entered, hpending]
    exact .nothing
  · refine ⟨u, v ++ [TokenKind.pipe], [], hu, hv.split hitems, ?_, by simp⟩
    rw [State.branched, hpending]
    exact .nothing
  · rw [houter] at hu
    cases hu with
    | @cons _ _ _ u' v' hu' hv' =>
      exact ⟨u', v', .parenOpen :: (v ++ [.parenClose]), hu', hv', .atom (.group (hv.derives hitems)), by simp⟩

theorem Held.step (h : Held s us) (hs : s.step limit t = .ok s') : Held s' (us ++ [t.kind]) := by
  rcases State.step_cases hs with ⟨name, hpending, hkind, rfl⟩ | ⟨name, hpending, hkind, rfl⟩ | ⟨_, hquantify⟩ |
    ⟨hbetween, hbegin⟩
  · obtain ⟨u, v, w, hu, hv, hw, rfl⟩ := h
    rw [hpending] at hw
    cases hw
    rw [hkind, List.append_assoc]
    exact ⟨u, v, _, hu, hv, .colon, rfl⟩
  · obtain ⟨u, v, w, hu, hv, hw, rfl⟩ := h
    rw [hpending] at hw
    cases hw
    rw [hkind, List.append_assoc]
    exact ⟨u, v, _, hu, hv, .atom .aliased, rfl⟩
  · exact h.settleName.quantify hquantify
  · exact h.settle.begin (State.pending_settle hbetween) hbegin

theorem held_initial : Held .initial [] := ⟨[], [], [], .nil, .empty, .nothing, rfl⟩

theorem Held.run (h : Held s us) (hs : s.run limit ts = .ok s') : Held s' (us ++ ts.map (·.kind)) := by
  induction ts generalizing s us with
  | nil =>
    obtain rfl := Except.ok.inj hs
    rwa [List.map_nil, List.append_nil]
  | cons t ts ih =>
    rw [State.run] at hs
    split at hs
    · rename_i middle hstep
      have hrest := ih (h.step hstep) hs
      rwa [List.append_assoc, List.singleton_append] at hrest
    · cases hs

theorem Held.finish {stop : Nat} {p : Parsed} (h : Held s us) (hs : s.finish stop = .ok p) : Derives .alternation us := by
  rw [State.finish] at hs
  split at hs
  · cases hs
  · rename_i hcolon
    have hpending : s.settle.pending = .nothing := State.pending_settle hcolon
    simp only at hs
    split at hs
    · cases hs
    · rename_i hitems
      split at hs
      · rename_i houter
        obtain ⟨u, v, w, hu, hv, hw, rfl⟩ := h.settle
        rw [houter] at hu
        rw [hpending] at hw
        cases hu
        cases hw
        rw [List.nil_append, List.append_nil]
        exact hv.derives (by simpa using hitems)
      · cases hs

end Parser

open CallGrammar.Parser CallGrammar.Parser.State

theorem derives_of_parseTokens {limit : Option Nat} {stop : Nat} {ts : List Token} {p : Parsed}
    (h : parseTokens limit stop ts = .ok p) : Derives .alternation (ts.map (·.kind)) := by
  rw [parseTokens] at h
  split at h
  · rename_i s hrun
    exact (held_initial.run hrun).finish h
  · cases h

theorem parseTokens_of_reads {stop : Nat} {ts : List Token} {branches : List (Expr Mention)}
    (h : Reads (.alternation branches) ts) : parseTokens none stop ts =
      .ok ⟨(Expr.number .empty (.alt branches)).2, (Expr.number .empty (.alt branches)).1⟩ := by
  obtain ⟨s, hrun, hbetween, hafter⟩ := takes_of_reads h .initial (by simp [Between, State.initial])
  obtain ⟨hterms, houter, hitems, hexpr⟩ := hafter rfl
  have hfinish : s.finish stop =
      .ok ⟨(Expr.number .empty (.alt branches)).2, (Expr.number .empty (.alt branches)).1⟩ := by
    rw [finish]
    split
    · rename_i name hname
      exact absurd hname (hbetween name)
    · simp [hitems, houter, hexpr, hterms, settle_eq_self, State.initial, Branches.empty, Expr.number]
  rw [parseTokens, hrun]
  exact hfinish

theorem parseTokens_eq_ok_iff {stop : Nat} {ts : List Token} {p : Parsed} : parseTokens none stop ts = .ok p ↔
    ∃ branches, Reads (.alternation branches) ts ∧ Expr.number .empty (.alt branches) = (p.terms, p.root) := by
  constructor
  · intro h
    obtain ⟨branches, hread⟩ := derives_alternation_iff.mp (derives_of_parseTokens h)
    rw [parseTokens_of_reads hread] at h
    obtain rfl := Except.ok.inj h
    exact ⟨branches, hread, rfl⟩
  · rintro ⟨branches, hread, hp⟩
    rw [parseTokens_of_reads hread, hp]

theorem parseTokens_none {limit : Option Nat} {stop : Nat} {ts : List Token} {p : Parsed}
    (h : parseTokens limit stop ts = .ok p) : parseTokens none stop ts = .ok p := by
  unfold parseTokens at h ⊢
  split at h
  · rename_i s hrun
    rw [run_none hrun]
    exact h
  · cases h

theorem reads_unique {ts : List Token} {as bs : List (Expr Mention)} (ha : Reads (.alternation as) ts)
    (hb : Reads (.alternation bs) ts) : as = bs := by
  have hfirst : parseTokens none 0 ts = _ := parseTokens_of_reads ha
  have hsame := hfirst.symm.trans (parseTokens_of_reads hb)
  have hroot := congrArg (fun p => p.root.map Occurrence.mention) (Except.ok.inj hsame)
  simpa only [Expr.map_mention_number, Expr.alt.injEq] using hroot

theorem parseTokens_ok_or_malformed (stop : Nat) (ts : List Token) : (∃ p, parseTokens none stop ts = .ok p) ∨
    ∃ position cause, parseTokens none stop ts = .error (.malformed position cause) := by
  cases h : parseTokens none stop ts with
  | ok p => exact .inl ⟨p, rfl⟩
  | error e =>
    rw [parseTokens] at h
    split at h
    · obtain ⟨position, cause, rfl⟩ := malformed_of_finish h
      exact .inr ⟨position, cause, rfl⟩
    · rename_i hrun
      obtain rfl := Except.error.inj h
      obtain ⟨position, cause, rfl⟩ := malformed_of_run hrun
      exact .inr ⟨position, cause, rfl⟩

theorem parse_ok_iff_derives (source : String) :
    ((∃ p, parse none source = .ok p) ↔ Derives .alternation ((lex source).map (·.kind))) ∧
    (∀ p, parse none source = .ok p → ∃ branches, p.root.map Occurrence.mention = .alt branches ∧
      Reads (.alternation branches) (lex source) ∧ ∀ tree, Reads (.alternation tree) (lex source) → tree = branches) ∧
    (∀ stop tokens, (∃ p, parseTokens none stop tokens = .ok p) ∨
      ∃ position cause, parseTokens none stop tokens = .error (.malformed position cause)) ∧
    (∀ limit tokens, Descends limit source tokens) ∧
    (∀ limit answer, parse? limit source = some answer → answer = parse limit source) ∧
    (source.utf8ByteSize < UInt32.size → lex? source = some (lex source) ∧
      ∀ limit, parse? limit source = some (parse limit source)) := by
  refine ⟨⟨?_, ?_⟩, ?_, parseTokens_ok_or_malformed, fun limit tokens => descends limit source tokens,
    fun limit answer => eq_of_parse?_eq_some, fun hsize => ⟨lex?_eq_some_lex hsize, parse?_eq hsize⟩⟩ <;> rw [parse]
  · rintro ⟨p, h⟩
    exact derives_of_parseTokens h
  · intro h
    obtain ⟨branches, hread⟩ := derives_alternation_iff.mp h
    exact ⟨_, parseTokens_of_reads hread⟩
  · intro p h
    obtain ⟨branches, hread, hp⟩ := parseTokens_eq_ok_iff.mp h
    refine ⟨branches, ?_, hread, fun tree htree => reads_unique htree hread⟩
    rw [← Expr.map_mention_number .empty (.alt branches), hp]

end CallGrammar
