import CallGrammar.Proofs.Tracing

namespace CallGrammar

theorem Dfa.lacks_blank_stateLabel (i : StateId) : Lacks ' ' (Dfa.stateLabel i) :=
  .stateLabel (by decide) (by decide) i

theorem Dfa.stateLabel_append_cancel {i j : StateId} {us vs : List Char}
    (h : (Dfa.stateLabel i).toList ++ ' ' :: us = (Dfa.stateLabel j).toList ++ ' ' :: vs) : i = j ∧ us = vs := by
  obtain ⟨hlabel, hrest⟩ := append_cons_cancel (Dfa.lacks_blank_stateLabel i) (Dfa.lacks_blank_stateLabel j) h
  exact ⟨Dfa.stateLabel_inj (String.toList_inj.mp hlabel), hrest⟩

inductive Entry where
  | moved (source : StateId) (term : Term) (target : StateId)
  | rejected (state : StateId) (callable message : String)
  | built (state : StateId) (accepted : Bool)

inductive Verdict where
  | moved
  | rejected
  | built
  | refused

namespace Entry

def state : Entry → StateId
  | .moved source _ _ => source
  | .rejected state _ _ => state
  | .built state _ => state

def target : Entry → StateId
  | .moved _ _ target => target
  | .rejected state _ _ => state
  | .built state _ => state

def verdict : Entry → Verdict
  | .moved .. => .moved
  | .rejected .. => .rejected
  | .built _ true => .built
  | .built _ false => .refused

def news : Entry → String
  | .moved _ term target => "-- " ++ term.text ++ " --> " ++ Dfa.stateLabel target
  | .rejected _ callable message => "reject " ++ callable ++ ": " ++ message
  | .built _ true => "build"
  | .built _ false => "build rejected"

def line (o : Entry) : String := Dfa.stateLabel o.state ++ " " ++ o.news

variable {o o' : Entry}

theorem line_toList (o : Entry) : o.line.toList = (Dfa.stateLabel o.state).toList ++ ' ' :: o.news.toList := by
  simp [line]

theorem state_eq_of_line_eq (h : o.line = o'.line) : o.state = o'.state ∧ o.news = o'.news := by
  have hlist := congrArg String.toList h
  rw [line_toList, line_toList] at hlist
  obtain ⟨hstate, hnews⟩ := Dfa.stateLabel_append_cancel hlist
  exact ⟨hstate, String.toList_inj.mp hnews⟩

theorem target_eq_of_news_eq {i i' j j' : StateId} {t t' : Term} (h : (moved i t j).news = (moved i' t' j').news) :
    j = j' := by
  have hreverse : ∀ (i : StateId) (t : Term) (j : StateId), (moved i t j).news.toList.reverse =
      (Dfa.stateLabel j).toList.reverse ++ ' ' :: ("-- " ++ t.text ++ " -->").toList.reverse := by
    intro i t j
    simp [news]
  have hlist := congrArg (·.toList.reverse) h
  simp only [hreverse] at hlist
  have hblank : ∀ j, ' ' ∉ (Dfa.stateLabel j).toList.reverse := fun j =>
    mt List.mem_reverse.mp (Dfa.lacks_blank_stateLabel j)
  obtain ⟨hlabel, _⟩ := append_cons_cancel (hblank j) (hblank j') hlist
  exact Dfa.stateLabel_inj (String.toList_inj.mp (List.reverse_inj.mp hlabel))

theorem verdict_eq_of_news_eq (h : o.news = o'.news) : o.verdict = o'.verdict := by
  have hlist := congrArg String.toList h
  rcases o with _ | _ | ⟨_, _ | _⟩ <;> rcases o' with _ | _ | ⟨_, _ | _⟩ <;> simp [news, verdict] at hlist ⊢

theorem eq_of_line_eq (h : o.line = o'.line) : o.target = o'.target ∧ o.verdict = o'.verdict := by
  obtain ⟨hstate, hnews⟩ := state_eq_of_line_eq h
  have hverdict := verdict_eq_of_news_eq hnews
  refine ⟨?_, hverdict⟩
  rcases o with _ | _ | ⟨_, _ | _⟩ <;> rcases o' with _ | _ | ⟨_, _ | _⟩ <;> simp only [verdict, reduceCtorEq] at hverdict
  · exact target_eq_of_news_eq hnews
  all_goals exact hstate

end Entry

def Answer.verdict? {Output : Type} : Answer Output → Option Verdict
  | .called (.ok _) => some .moved
  | .called (.error _) => some .rejected
  | .built (.ok _) => some .built
  | .built (.error _) => some .refused
  | .watched => none

def Event.told? : Event → Option Entry
  | .moved source term target => some (.moved source term target)
  | .rejected state callable error => some (.rejected state callable error.message)
  | .built state accepted => some (.built state accepted)
  | .called .. | .resting .. => none

namespace Event

variable {e : Event} {o : Entry}

theorem detail_of_told? (h : e.told? = some o) : e.detail = .brief := by
  cases e <;> simp [told?] at h <;> rfl

theorem line_of_told? (h : e.told? = some o) : e.line .plain = o.line := by
  apply String.toList_inj.mp
  cases e with
  | called | resting => cases h
  | moved | rejected =>
    obtain rfl := Option.some.inj h
    simp [line, Palette.paintState, Palette.paint, Palette.plain, Entry.line, Entry.state, Entry.news]
  | built _ accepted =>
    obtain rfl := Option.some.inj h
    cases accepted <;>
      simp [line, Palette.paintState, Palette.paint, Palette.plain, Entry.line, Entry.state, Entry.news]

theorem entry_line_ne_called (o : Entry) (s : StateId) (name : String) : o.line ≠ (Event.called s name).line .plain := by
  intro h
  have hcalled : ((Event.called s name).line .plain).toList =
      (Dfa.stateLabel s).toList ++ ' ' :: ("call " ++ name).toList := by
    simp [line, Palette.paintState, Palette.paint, Palette.plain]
  have hlist := congrArg String.toList h
  rw [o.line_toList, hcalled] at hlist
  obtain ⟨_, hnews⟩ := Dfa.stateLabel_append_cancel hlist
  rcases o with _ | _ | ⟨_, _ | _⟩ <;> simp [Entry.news] at hnews

theorem entry_line_ne_resting (o : Entry) (s : StateId) (isFinal : Bool) (expected : List String) :
    o.line ≠ (Event.resting s isFinal expected).line .plain := by
  intro h
  have hlist := congrArg String.toList h
  simp [o.line_toList, Dfa.stateLabel, line] at hlist

theorem entry_line_ne (h : e.told? = none) (o : Entry) : o.line ≠ e.line .plain := by
  cases e <;> simp only [told?, reduceCtorEq] at h
  · exact entry_line_ne_called o _ _
  · exact entry_line_ne_resting o _ _ _

end Event

section

variable {Args Output : Type}

inductive Grammar.Settles (g : Grammar) : StateId → Operation Args → Answer Output → Entry → StateId → Prop where
  | moved {s j : StateId} {id : TermId} {t : Term} {name : String} {args : Args} :
      (id, j) ∈ g.dfa.edges s → g.terms.get? id = some t →
      Settles g s (.call name args) (.called (.ok ())) (.moved s t j) j
  | rejected {s : StateId} {name : String} {args : Args} {e : DispatchError} :
      Settles g s (.call name args) (.called (.error e)) (.rejected s name e.message) s
  | built {s : StateId} {output : Output} : Settles g s .build (.built (.ok output)) (.built s true) s
  | refused {s : StateId} {e : DispatchError} : Settles g s .build (.built (.error e)) (.built s false) s

inductive Grammar.Replays (g : Grammar) :
    StateId → List (Operation Args) → List (Answer Output) → List String → StateId → Prop where
  | nil (s : StateId) : Replays g s [] [] [] s
  | aside {s u : StateId} {ops : List (Operation Args)} {answers : List (Answer Output)} {line : String}
      {lines : List String} : (∀ o : Entry, o.line ≠ line) → Replays g s ops answers lines u →
      Replays g s ops answers (line :: lines) u
  | entry {s j u : StateId} {op : Operation Args} {answer : Answer Output} {o : Entry} {ops : List (Operation Args)}
      {answers : List (Answer Output)} {lines : List String} : g.Settles s op answer o j →
      Replays g j ops answers lines u → Replays g s (op :: ops) (answer :: answers) (o.line :: lines) u
  | watched {s u : StateId} {ops : List (Operation Args)} {answers : List (Answer Output)} {lines : List String} :
      Replays g s ops answers lines u → Replays g s (.watch :: ops) (.watched :: answers) lines u

end

namespace Grammar

variable {Args Output : Type} {g : Grammar} {s j u u' : StateId} {op : Operation Args} {answer : Answer Output} {o : Entry}
  {ops ops' : List (Operation Args)} {answers answers' : List (Answer Output)} {line : String} {lines : List String}

def verdicts (answers : List (Answer Output)) : List Verdict := answers.filterMap Answer.verdict?

theorem Settles.target_eq (h : g.Settles s op answer o j) : j = o.target := by cases h <;> rfl

theorem Settles.verdict? (h : g.Settles s op answer o j) : answer.verdict? = some o.verdict := by cases h <;> rfl

theorem Replays.of_nil (h : g.Replays s ops answers [] u) : u = s ∧ verdicts answers = [] := by
  generalize hlines : ([] : List String) = lines at h
  induction h with
  | nil => exact ⟨rfl, rfl⟩
  | aside => cases hlines
  | entry => cases hlines
  | watched _ ih => exact ih hlines

theorem Replays.of_cons (h : g.Replays s ops answers (line :: lines) u) :
    (∀ o : Entry, o.line ≠ line) ∧ (∃ (ops' : List (Operation Args)) (answers' : List (Answer Output)),
      verdicts answers = verdicts answers' ∧ g.Replays s ops' answers' lines u) ∨
    ∃ (o : Entry) (ops' : List (Operation Args)) (answers' : List (Answer Output)), o.line = line ∧
      verdicts answers = o.verdict :: verdicts answers' ∧ g.Replays o.target ops' answers' lines u := by
  generalize hlines : line :: lines = all at h
  induction h with
  | nil => cases hlines
  | aside hnone hrest =>
    obtain ⟨rfl, rfl⟩ := List.cons.inj hlines
    exact .inl ⟨hnone, _, _, rfl, hrest⟩
  | entry hsettles hrest =>
    obtain ⟨rfl, rfl⟩ := List.cons.inj hlines
    refine .inr ⟨_, _, _, rfl, ?_, hsettles.target_eq ▸ hrest⟩
    rw [verdicts, List.filterMap_cons_some hsettles.verdict?]
    rfl
  | watched _ ih => exact ih hlines

theorem Replays.unique (h : g.Replays s ops answers lines u) (h' : g.Replays s ops' answers' lines u') :
    u = u' ∧ verdicts answers = verdicts answers' := by
  induction lines generalizing s ops ops' answers answers' with
  | nil =>
    obtain ⟨rfl, hverdicts⟩ := h.of_nil
    obtain ⟨rfl, hverdicts'⟩ := h'.of_nil
    exact ⟨rfl, hverdicts.trans hverdicts'.symm⟩
  | cons line lines ih =>
    rcases h.of_cons with ⟨hnone, _, _, hverdicts, hrest⟩ | ⟨o, _, _, ho, hverdicts, hrest⟩ <;>
      rcases h'.of_cons with ⟨hnone', _, _, hverdicts', hrest'⟩ | ⟨o', _, _, ho', hverdicts', hrest'⟩
    · obtain ⟨hu, hsame⟩ := ih hrest hrest'
      exact ⟨hu, by rw [hverdicts, hverdicts', hsame]⟩
    · exact absurd ho' (hnone o')
    · exact absurd ho (hnone' o)
    · obtain ⟨htarget, hverdict⟩ := Entry.eq_of_line_eq (ho.trans ho'.symm)
      obtain ⟨hu, hsame⟩ := ih hrest (htarget ▸ hrest')
      exact ⟨hu, by rw [hverdicts, hverdicts', hverdict, hsame]⟩

end Grammar

namespace Event

def shown (v : Verbosity) (events : List Event) : List String :=
  (events.filter (·.detail.rank ≤ v.rank)).map (·.line .plain)

variable {Args Output : Type} {g : Grammar} {v : Verbosity} {e : Event} {o : Entry} {es fs : List Event} {s j u : StateId}
  {op : Operation Args} {ops : List (Operation Args)} {answer : Answer Output} {answers : List (Answer Output)}
  {lines : List String}

theorem shown_append (v : Verbosity) (es fs : List Event) : shown v (es ++ fs) = shown v es ++ shown v fs := by
  simp [shown]

theorem shown_cons_of_told? (h : e.told? = some o) : shown v (e :: es) = o.line :: shown v es := by
  have hrank : e.detail.rank ≤ v.rank := by
    rw [detail_of_told? h]
    exact Nat.zero_le _
  rw [shown, List.filter_cons_of_pos (by simpa using hrank), List.map_cons, line_of_told? h, shown]

theorem replays_aside (h : e.told? = none) (hrest : g.Replays s ops answers (shown v es ++ lines) u) :
    g.Replays s ops answers (shown v (e :: es) ++ lines) u := by
  by_cases hrank : e.detail.rank ≤ v.rank
  · rw [shown, List.filter_cons_of_pos (by simpa using hrank)]
    exact .aside (entry_line_ne h) hrest
  · rw [shown, List.filter_cons_of_neg (by simpa using hrank)]
    exact hrest

theorem replays_entry (h : e.told? = some o) (hsettles : g.Settles s op answer o j)
    (hrest : g.Replays j ops answers (shown v es ++ lines) u) :
    g.Replays s (op :: ops) (answer :: answers) (shown v (e :: es) ++ lines) u := by
  rw [shown_cons_of_told? h]
  exact .entry hsettles hrest

end Event

namespace Chain

variable {Object Args Output : Type} {g : Grammar} {c : Chain Object Args Output} {op : Operation Args}
  {ops : List (Operation Args)} {answers : List (Answer Output)} {lines : List String} {u : StateId}

open Event (shown replays_aside replays_entry)

theorem replays_perform (hdfa : c.dfa = g.dfa) (hterms : c.terms = g.terms) (v : Verbosity) (op : Operation Args)
    (hrest : g.Replays (c.perform op).1.state ops answers lines u) :
    g.Replays c.state (op :: ops) (c.answer op :: answers) (shown v (c.perform op).2 ++ lines) u := by
  cases op with
  | call name args =>
    rw [answer]
    rw [perform] at hrest ⊢
    rcases call_cases c name args with ⟨e, _, hcall⟩ | ⟨t, j, message, object, _, _, hcall⟩ |
      ⟨t, j, object, hresolve, _, hcall⟩ <;> rw [hcall] at hrest ⊢
    · exact replays_aside rfl (replays_entry rfl .rejected hrest)
    · exact replays_aside rfl (replays_entry rfl .rejected hrest)
    · obtain ⟨id, hedge, hid⟩ := mem_moves_iff.mp (mem_candidates (mem_candidates_of_resolve hresolve)).1
      exact replays_aside rfl (replays_entry rfl (.moved (hdfa ▸ hedge) (hterms ▸ hid)) (replays_aside rfl hrest))
  | build =>
    rw [answer]
    rw [perform] at hrest ⊢
    rcases build_cases c with ⟨_, hbuild⟩ | ⟨_, hbuild⟩ <;> rw [hbuild] at hrest ⊢
    · exact replays_entry rfl .built hrest
    · exact replays_entry rfl .refused hrest
  | watch => exact .watched (replays_aside rfl hrest)

theorem replays_run (hdfa : c.dfa = g.dfa) (hterms : c.terms = g.terms) (v : Verbosity) (ops : List (Operation Args)) :
    g.Replays c.state ops (c.answers ops) (shown v (c.run ops).2) (c.run ops).1.state := by
  induction ops generalizing c with
  | nil => exact .nil c.state
  | cons op ops ih =>
    rw [run, answers, Event.shown_append]
    exact replays_perform hdfa hterms v op (ih ((c.dfa_perform op).trans hdfa) ((c.terms_perform op).trans hterms))

theorem replays_lines (hdfa : c.dfa = g.dfa) (hterms : c.terms = g.terms) (v : Verbosity) (ops : List (Operation Args)) :
    g.Replays c.state ops (c.answers ops) (c.lines v .plain ops) (c.run ops).1.state := by
  have hlines : c.lines v .plain ops = shown v (c.resting :: (c.run ops).2) ++ [] := by
    rw [lines_eq_map, List.append_nil]
    rfl
  rw [hlines]
  refine replays_aside rfl ?_
  rw [List.append_nil]
  exact replays_run hdfa hterms v ops

end Chain

theorem Grammar.replays_chain {Object Args Output : Type} (g : Grammar) (actions : Actions Object Args Output)
    (object : Object) (v : Verbosity) (ops : List (Operation Args)) :
    g.Replays Dfa.start ops ((g.chain actions object).answers ops) ((g.chain actions object).lines v .plain ops)
      ((g.chain actions object).run ops).1.state ∧
    ∀ (ops' : List (Operation Args)) (answers : List (Answer Output)) (s : StateId),
      g.Replays Dfa.start ops' answers ((g.chain actions object).lines v .plain ops) s →
        s = ((g.chain actions object).run ops).1.state ∧
          verdicts answers = verdicts ((g.chain actions object).answers ops) := by
  have hreplays := Chain.replays_lines (c := g.chain actions object) rfl rfl v ops
  exact ⟨hreplays, fun _ _ _ h => h.unique hreplays⟩

end CallGrammar
