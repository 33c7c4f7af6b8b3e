import CallGrammar.Proofs.Report
import CallGrammar.Proofs.Spelling

namespace CallGrammar

open CallToken (operation script)

def OneLine (text : String) : Prop := '\n' ∉ text.toList

instance (text : String) : Decidable (OneLine text) := inferInstanceAs (Decidable (_ ∉ _))

theorem Lacks.of_isWord {c : Char} {t : String} (h : IsWord t) (hc : isWordChar c = false) : Lacks c t := by
  intro hmem
  rw [h.2 c hmem] at hc
  cases hc

namespace OneLine

variable {t u : String} {p : Palette}

theorem append (ht : OneLine t) (hu : OneLine u) : OneLine (t ++ u) := Lacks.append ht hu

theorem intercalate {texts : List String} (ht : OneLine t) (h : ∀ u ∈ texts, OneLine u) :
    OneLine (t.intercalate texts) :=
  Lacks.intercalate ht h

theorem paint (hcolor : OneLine u) (hreset : OneLine p.reset) (ht : OneLine t) : OneLine (p.paint u t) :=
  (hcolor.append ht).append hreset

theorem of_isWord (h : IsWord t) : OneLine t := Lacks.of_isWord h (by decide)

theorem stateLabel (i : StateId) : OneLine (Dfa.stateLabel i) := Lacks.stateLabel (by decide) (by decide) i

end OneLine

section

variable {name name' next next' : String} {names names' : List String}

theorem toList_intercalate_cons_cons (name next : String) (names : List String) :
    (", ".intercalate (name :: next :: names)).toList =
      (name.toList ++ [',']) ++ ' ' :: (", ".intercalate (next :: names)).toList := by
  simp [String.intercalate_cons_cons]

theorem intercalate_cons_ne_empty (h : IsWord name) (names : List String) : ", ".intercalate (name :: names) ≠ "" := by
  cases names with
  | nil => simpa using h.1
  | cons next names =>
    intro hempty
    have hlist := toList_intercalate_cons_cons name next names
    simp [hempty] at hlist

theorem intercalate_singleton_ne (h : IsWord name) (name' next' : String) (names' : List String) :
    ", ".intercalate [name] ≠ ", ".intercalate (name' :: next' :: names') := by
  intro heq
  have hblank : ' ' ∈ (", ".intercalate [name]).toList := by
    rw [heq, toList_intercalate_cons_cons]
    simp
  rw [String.intercalate_singleton] at hblank
  exact Lacks.of_isWord h (by decide) hblank

theorem intercalate_inj (h : ∀ name ∈ names, IsWord name) (h' : ∀ name ∈ names', IsWord name)
    (heq : ", ".intercalate names = ", ".intercalate names') : names = names' := by
  induction names generalizing names' with
  | nil =>
    cases names' with
    | nil => rfl
    | cons name' names' => exact absurd heq.symm (intercalate_cons_ne_empty (h' name' List.mem_cons_self) names')
  | cons name names ih =>
    cases names' with
    | nil => exact absurd heq (intercalate_cons_ne_empty (h name List.mem_cons_self) names)
    | cons name' names' =>
      obtain ⟨hname, hnames⟩ := List.forall_mem_cons.mp h
      obtain ⟨hname', hnames'⟩ := List.forall_mem_cons.mp h'
      cases names with
      | nil =>
        cases names' with
        | nil => simpa using heq
        | cons next' names' => exact absurd heq (intercalate_singleton_ne hname _ _ _)
      | cons next names =>
        cases names' with
        | nil => exact absurd heq.symm (intercalate_singleton_ne hname' _ _ _)
        | cons next' names' =>
          have hlist := congrArg String.toList heq
          rw [toList_intercalate_cons_cons, toList_intercalate_cons_cons] at hlist
          have hblank : ∀ {name}, IsWord name → ' ' ∉ name.toList ++ [','] := fun h =>
            List.not_mem_append (Lacks.of_isWord h (by decide)) (by decide)
          obtain ⟨hfirst, hrest⟩ := append_cons_cancel (hblank hname) (hblank hname') hlist
          rw [String.toList_inj.mp (List.append_cancel_right hfirst), ih hnames hnames' (String.toList_inj.mp hrest)]

end

namespace Palette

variable {i j : StateId} {isFinal isFinal' : Bool} {us vs : List Char}

theorem paintState_append_cancel (colored : Bool)
    (h : ((ofColored colored).paintState (Dfa.stateLabel i)).toList ++ ' ' :: us =
      ((ofColored colored).paintState (Dfa.stateLabel j)).toList ++ ' ' :: vs) : i = j ∧ us = vs := by
  have hlabel : ∀ c, Lacks c "S" → c.isDigit = false → ∀ i, c ∉ (Dfa.stateLabel i).toList := fun c hc hdigit i =>
    Lacks.stateLabel hc hdigit i
  cases colored with
  | false =>
    have hlist : (Dfa.stateLabel i).toList ++ ' ' :: us = (Dfa.stateLabel j).toList ++ ' ' :: vs := by
      simpa [ofColored, plain, paintState, paint] using h
    obtain ⟨hstate, hrest⟩ := append_cons_cancel (hlabel ' ' (by decide) rfl i) (hlabel ' ' (by decide) rfl j) hlist
    exact ⟨Dfa.stateLabel_inj (String.toList_inj.mp hstate), hrest⟩
  | true =>
    have hlist : (Dfa.stateLabel i).toList ++ '\x1b' :: ("[0m".toList ++ ' ' :: us) =
        (Dfa.stateLabel j).toList ++ '\x1b' :: ("[0m".toList ++ ' ' :: vs) := by
      simpa [ofColored, ansi, paintState, paint] using h
    obtain ⟨hstate, hrest⟩ := append_cons_cancel (hlabel _ (by decide) (by decide) i)
      (hlabel _ (by decide) (by decide) j) hlist
    exact ⟨Dfa.stateLabel_inj (String.toList_inj.mp hstate), by simpa using hrest⟩

theorem acceptMark_append_cancel (colored : Bool)
    (h : ((ofColored colored).acceptMark isFinal).toList ++ ' ' :: '[' :: us =
      ((ofColored colored).acceptMark isFinal').toList ++ ' ' :: '[' :: vs) : isFinal = isFinal' ∧ us = vs := by
  cases colored <;> cases isFinal <;> cases isFinal' <;> simp [ofColored, ansi, plain, acceptMark, paint] at h ⊢
  all_goals exact h

theorem exists_acceptMark_append_eq (p : Palette) (isFinal : Bool) (us : List Char) :
    ∃ vs, (p.acceptMark isFinal).toList ++ ' ' :: us = ' ' :: vs := by
  cases isFinal <;> simp [acceptMark]

end Palette

theorem Grammar.writable_of_compile {limits : Limits} {source : String} {g : Grammar} {id : TermId} {t : Term}
    (hsize : source.utf8ByteSize < UInt32.size) (h : compile limits source = .ok g) (hid : g.terms.get? id = some t) :
    t.Writable := by
  obtain ⟨branches, hread, hast⟩ := exists_reads_of_compile h
  obtain ⟨o, ho, rfl⟩ := exists_occurrence_of_compile h hid
  obtain rfl : o.term = t := Option.some.inj (((compiled_of_compile h).named ho).symm.trans hid)
  have hmention : o.mention ∈ (Expr.alt branches).leaves := by
    rw [← hast, Expr.leaves_map]
    exact List.mem_map_of_mem ho
  exact hread.writable (fun t ht hkind => (standsIn_of_mem_lex hsize ht).isWord hkind) _ hmention

def Report.line (r : Report) (p : Palette) : String :=
  p.paintState (Dfa.stateLabel r.state) ++ p.acceptMark r.accepting ++ " [" ++ ", ".intercalate r.expected ++ "]"

theorem Report.oneLine_line {r : Report} (h : ∀ name ∈ r.expected, OneLine name) (colored : Bool) :
    OneLine (r.line (.ofColored colored)) := by
  have hstate : OneLine ((Palette.ofColored colored).paintState (Dfa.stateLabel r.state)) :=
    .paint (by cases colored <;> decide) (by cases colored <;> decide) (.stateLabel r.state)
  have hmark : OneLine ((Palette.ofColored colored).acceptMark r.accepting) := by
    cases colored <;> cases r.accepting <;> decide
  have hnames : OneLine (", ".intercalate r.expected) := .intercalate (by decide) h
  exact (((hstate.append hmark).append (by decide)).append hnames).append (by decide)

theorem Report.line_toList (r : Report) (p : Palette) : (r.line p).toList =
    (p.paintState (Dfa.stateLabel r.state)).toList ++ ((p.acceptMark r.accepting).toList ++
      ' ' :: '[' :: ((", ".intercalate r.expected).toList ++ [']'])) := by
  simp [line]

theorem Report.line_inj {r r' : Report} {colored : Bool} (h : ∀ name ∈ r.expected, IsWord name)
    (h' : ∀ name ∈ r'.expected, IsWord name) (heq : r.line (.ofColored colored) = r'.line (.ofColored colored)) :
    r.state = r'.state ∧ r.accepting = r'.accepting ∧ r.expected = r'.expected := by
  have hlist := congrArg String.toList heq
  rw [Report.line_toList, Report.line_toList] at hlist
  obtain ⟨us, hus⟩ := Palette.exists_acceptMark_append_eq (.ofColored colored) r.accepting
    ('[' :: ((", ".intercalate r.expected).toList ++ [']']))
  obtain ⟨vs, hvs⟩ := Palette.exists_acceptMark_append_eq (.ofColored colored) r'.accepting
    ('[' :: ((", ".intercalate r'.expected).toList ++ [']']))
  rw [hus, hvs] at hlist
  obtain ⟨hstate, rfl⟩ := Palette.paintState_append_cancel colored hlist
  obtain ⟨haccepting, hnames⟩ := Palette.acceptMark_append_cancel colored (hus.trans hvs.symm)
  exact ⟨hstate, haccepting, intercalate_inj h h' (String.toList_inj.mp (List.append_cancel_right hnames))⟩

structure Report.Readable (r : Report) (p : Palette) : Prop where
  oneLine : OneLine (r.line p)
  determined {r' : Report} : (∀ name ∈ r'.expected, IsWord name) → r'.line p = r.line p →
    r'.state = r.state ∧ r'.accepting = r.accepting ∧ r'.expected = r.expected

theorem Report.readable {r : Report} (h : ∀ name ∈ r.expected, IsWord name) (colored : Bool) :
    r.Readable (.ofColored colored) where
  oneLine := Report.oneLine_line (fun name hname => .of_isWord (h name hname)) colored
  determined h' heq := Report.line_inj h' h heq

namespace Grammar

variable {g : Grammar} {source : String} {ts : List CallToken} {build : Bool} {e : DispatchError}

def traced (g : Grammar) (ts : List CallToken) (build : Bool) (verbosity : Verbosity) (p : Palette) : String :=
  ((Trace.start verbosity p).observe
    (g.recordingChain.run (.watch :: g.recordingChain.attempted (script ts build))).2).output

theorem ofTrace_of_error (h : g.recordingChain.firstError? (script ts build) = some e) (verbosity : Verbosity)
    (p : Palette) :
    Outcome.ofTrace g.recordingChain (g.recordingChain.walk ts build) verbosity p =
      ⟨2, "", g.traced ts build verbosity p ++ e.line⟩ := by
  obtain ⟨c, hwalk⟩ := walk_of_error h
  rw [hwalk]
  rfl

theorem ofTrace_of_none (h : g.recordingChain.firstError? (script ts build) = none) (verbosity : Verbosity)
    (p : Palette) :
    Outcome.ofTrace g.recordingChain (g.recordingChain.walk ts build) verbosity p =
      ⟨0, p.paint p.dim "---" ++ "\n" ++ (g.report ts build).line p ++ "\n", g.traced ts build verbosity p⟩ := by
  rw [walk_of_none h]
  rfl

theorem isWord_of_mem_report (hsize : source.utf8ByteSize < UInt32.size) (h : compile .standard source = .ok g)
    (hrefuses : ¬ g.Refuses ts build) : ∀ name ∈ (g.report ts build).expected, IsWord name := by
  intro name hname
  obtain ⟨id, j, t, _, hid, rfl⟩ := ((tells_of_not_refuses h hrefuses).mem_expected_iff name).mp hname
  exact (writable_of_compile hsize h hid).callable

end Grammar

inductive Settings.Retold (s : Settings) (w : Writers) (reader : Reader) (p : Palette) : Outcome → Outcome → Prop where
  | failed {stderr : String} : (∀ source g, ¬ s.Compiles reader source g) →
      Retold s w reader p ⟨1, "", stderr⟩ ⟨1, "", stderr⟩
  | refused {source : String} {g : Grammar} {e : DispatchError} : s.Compiles reader source g →
      g.Refuses s.tokens (s.has .build) →
      Retold s w reader p ⟨2, "", e.line⟩
        ⟨2, "", g.traced s.tokens (s.has .build) (.ofCount s.verbose) p ++ e.line⟩
  | finished {source text : String} {g : Grammar} : s.Compiles reader source g →
      ¬ g.Refuses s.tokens (s.has .build) →
      w.json (s.has .compact) (g.report s.tokens (s.has .build)).json = .ok text →
      (source.utf8ByteSize < UInt32.size → (g.report s.tokens (s.has .build)).Readable p) →
      Retold s w reader p ⟨0, text ++ "\n", ""⟩
        ⟨0, p.paint p.dim "---" ++ "\n" ++ (g.report s.tokens (s.has .build)).line p ++ "\n",
          g.traced s.tokens (s.has .build) (.ofCount s.verbose) p⟩

theorem ColorChoice.isColored_of_ne_auto {choice : ColorChoice} (h : choice ≠ .auto) (isTerminal : Bool) :
    choice.isColored isTerminal = decide (choice = .always) := by
  cases choice with
  | auto => exact absurd rfl h
  | always | never => rfl

theorem Invocation.prepare_congr {i j : Invocation} {w : Writers} {isTerminal isTerminal' : Bool} {reader : Reader}
    (horigin : i.origin? = j.origin?) (hlog : i.log = j.log)
    (hcolor : i.color.isColored isTerminal = j.color.isColored isTerminal') :
    i.prepare w isTerminal reader = j.prepare w isTerminal' reader := by
  rw [prepare, prepare, horigin, hlog, hcolor]

namespace Settings

variable {s outer : Settings} {w : Writers} {reader : Reader} {source text path : String} {words : List String} {g : Grammar}

def inline (s : Settings) (text : String) (words : List String) : Settings :=
  { s with text := some text, path := words.head?, calls := words.tail }

def filed (s : Settings) (path : String) (words : List String) : Settings :=
  { s with text := none, path := some path, calls := words }

theorem Compiles.run_off (h : s.Compiles reader source g) (hlog : (s.log.or outer.log).getD .off = .off)
    (c : CommandName) (w : Writers) (isTerminal : Bool) : ∃ label, (s.invocation outer c).runWith w isTerminal reader =
      ((s.request c).answer w g label ((s.color.getD .auto).isColored isTerminal)).1 := by
  obtain ⟨label, records, hlevel, hrun⟩ := h.exists_run_eq outer c w isTerminal
  have hoff : (s.invocation outer c).log = .off := hlog
  rw [hoff, Outcome.addLog_off w hlevel] at hrun
  exact ⟨label, hrun⟩

theorem answer_trace (s : Settings) (w : Writers) (g : Grammar) (label : String) (colored : Bool) :
    ((s.request .trace).answer w g label colored).1 =
      Outcome.ofTrace g.recordingChain (g.recordingChain.walk s.tokens (s.has .build)) (.ofCount s.verbose)
        (.ofColored colored) := by
  rw [← map_parse_shifted]
  rfl

theorem prepare_trace {choice : ColorChoice} (hcolor : s.color = some choice) (hchoice : choice ≠ .auto)
    (outer : Settings) (w : Writers) (isTerminal isTerminal' : Bool) (reader : Reader) :
    (s.invocation outer .trace).prepare w isTerminal' reader = (s.invocation outer .exec).prepare w isTerminal reader := by
  have hcolored : ∀ c b, (s.invocation outer c).color.isColored b = decide (choice = .always) := by
    intro c b
    rw [← ColorChoice.isColored_of_ne_auto hchoice b, invocation, hcolor, Option.getD_some]
  exact Invocation.prepare_congr rfl rfl ((hcolored .trace isTerminal').trans (hcolored .exec isTerminal).symm)

theorem retold {choice : ColorChoice} (hw : w.Serializes) (hcolor : s.color = some choice) (hchoice : choice ≠ .auto)
    (hlog : (s.log.or outer.log).getD .off = .off) (isTerminal isTerminal' : Bool) (reader : Reader) :
    s.Retold w reader (.ofColored (choice = .always)) ((s.invocation outer .exec).runWith w isTerminal reader)
      ((s.invocation outer .trace).runWith w isTerminal' reader) := by
  by_cases h : ∃ source g, s.Compiles reader source g
  · obtain ⟨source, g, h⟩ := h
    obtain ⟨_, hexec⟩ := h.run_off hlog .exec w isTerminal
    obtain ⟨_, htrace⟩ := h.run_off hlog .trace w isTerminal'
    rw [hexec, htrace, answer_exec, answer_trace, hcolor, Option.getD_some, ColorChoice.isColored_of_ne_auto hchoice]
    by_cases hrefuses : g.Refuses s.tokens (s.has .build)
    · obtain ⟨e, herror⟩ := (g.refuses_iff s.tokens (s.has .build)).mp hrefuses
      rw [Grammar.ofExec_of_error herror, Grammar.ofTrace_of_error herror]
      exact .refused h hrefuses
    · have hnone := (g.not_refuses_iff s.tokens (s.has .build)).mp hrefuses
      obtain ⟨text, htext⟩ := hw (s.has .compact) (g.report s.tokens (s.has .build))
      rw [Grammar.ofExec_of_none hnone, Grammar.ofTrace_of_none hnone, Outcome.ofJson, htext]
      exact .finished h hrefuses htext fun hsize =>
        Report.readable (Grammar.isWord_of_mem_report hsize h.compile_eq hrefuses) _
  · have hnone : ∀ source g, ¬ s.Compiles reader source g := fun source g hg => h ⟨source, g, hg⟩
    obtain ⟨⟨code, stdout, stderr⟩, hprepare, hcode, hstdout⟩ := exists_failure hnone outer .exec w isTerminal
    obtain rfl : code = 1 := hcode
    obtain rfl : stdout = "" := hstdout
    rw [Invocation.runWith, Invocation.runWith, prepare_trace hcolor hchoice outer w isTerminal isTerminal', hprepare]
    exact .failed hnone

theorem shifted_inline (s : Settings) (text : String) (words : List String) :
    (s.inline text words).shifted.2 = words := by
  cases words <;> rfl

theorem request_inline (s : Settings) (text path : String) (words : List String) (c : CommandName) :
    (s.inline text words).request c = (s.filed path words).request c := by
  cases c with
  | check | ast | dump => rfl
  | exec | trace =>
    rw [request, request, shifted_inline]
    rfl

theorem loads_inline_iff : (s.inline text words).Loads reader source ↔ source = text := by
  constructor
  · intro h
    cases h with
    | inline htext => exact (Option.some.inj htext).symm
    | stdin htext => cases htext
    | file htext => cases htext
  · rintro rfl
    exact .inline rfl

theorem loads_filed_iff (hpath : path ≠ "-") (hread : reader (.file path) = .ok text) :
    (s.filed path words).Loads reader source ↔ source = text := by
  constructor
  · intro h
    cases h with
    | inline htext => cases htext
    | stdin _ hdash => exact absurd (Option.some.inj hdash) hpath
    | file _ hsome _ hsource =>
      obtain rfl := Option.some.inj hsome
      exact Except.ok.inj (hsource.symm.trans hread)
  · rintro rfl
    exact .file rfl rfl hpath hread

theorem run_inline {c : CommandName} (hc : c.takesCalls = true) (hpath : path ≠ "-")
    (hread : reader (.file path) = .ok text) (s outer : Settings) (w : Writers) (words : List String)
    (isTerminal : Bool) :
    (((s.inline text words).invocation outer c).runWith w isTerminal reader).code =
      (((s.filed path words).invocation outer c).runWith w isTerminal reader).code ∧
    (((s.inline text words).invocation outer c).runWith w isTerminal reader).stdout =
      (((s.filed path words).invocation outer c).runWith w isTerminal reader).stdout := by
  cases hcompile : Grammar.compile .standard text with
  | ok g =>
    have hinline : (s.inline text words).Compiles reader text g := ⟨loads_inline_iff.mpr rfl, hcompile⟩
    have hfiled : (s.filed path words).Compiles reader text g := ⟨(loads_filed_iff hpath hread).mpr rfl, hcompile⟩
    obtain ⟨label, _, _, hrun⟩ := hinline.exists_run_eq outer c w isTerminal
    obtain ⟨label', _, _, hrun'⟩ := hfiled.exists_run_eq outer c w isTerminal
    have hanswer : ((s.filed path words).request c).answer w g label ((s.color.getD .auto).isColored isTerminal) =
        ((s.filed path words).request c).answer w g label' ((s.color.getD .auto).isColored isTerminal) := by
      cases c with
      | check | ast | dump => cases hc
      | exec | trace => rfl
    rw [hrun, hrun', request_inline s text path]
    exact ⟨congrArg (·.1.code) hanswer, congrArg (·.1.stdout) hanswer⟩
  | error e =>
    have hinline : ∀ source g, ¬ (s.inline text words).Compiles reader source g := by
      rintro source g ⟨hloads, hok⟩
      rw [loads_inline_iff.mp hloads, hcompile] at hok
      cases hok
    have hfiled : ∀ source g, ¬ (s.filed path words).Compiles reader source g := by
      rintro source g ⟨hloads, hok⟩
      rw [(loads_filed_iff hpath hread).mp hloads, hcompile] at hok
      cases hok
    obtain ⟨o, hprepare, hcode, hstdout⟩ := exists_failure hinline outer c w isTerminal
    obtain ⟨o', hprepare', hcode', hstdout'⟩ := exists_failure hfiled outer c w isTerminal
    rw [Invocation.runWith, Invocation.runWith, hprepare, hprepare']
    exact ⟨hcode.trans hcode'.symm, hstdout.trans hstdout'.symm⟩

end Settings

theorem same_walk :
    (∀ {s outer : Settings} {w : Writers} {choice : ColorChoice}, w.Serializes → s.color = some choice → choice ≠ .auto →
      (s.log.or outer.log).getD .off = .off → ∀ (isTerminal isTerminal' : Bool) (reader : Reader),
        s.Retold w reader (.ofColored (choice = .always)) ((s.invocation outer .exec).runWith w isTerminal reader)
          ((s.invocation outer .trace).runWith w isTerminal' reader)) ∧
    ∀ {reader : Reader} {text path : String} {c : CommandName}, c.takesCalls = true → path ≠ "-" →
      reader (.file path) = .ok text → ∀ (s outer : Settings) (w : Writers) (words : List String) (isTerminal : Bool),
        (((s.inline text words).invocation outer c).runWith w isTerminal reader).code =
          (((s.filed path words).invocation outer c).runWith w isTerminal reader).code ∧
        (((s.inline text words).invocation outer c).runWith w isTerminal reader).stdout =
          (((s.filed path words).invocation outer c).runWith w isTerminal reader).stdout :=
  ⟨Settings.retold, Settings.run_inline⟩

def tour : Settings := { Settings.initial with color := some .always, verbose := 2 }

def tourReader : Reader := fun origin => if origin = .file "tour" then .ok "a (b|c:d)* e?" else .error .notFound

theorem same_walk_on_tour :
    Writers.standard.Serializes ∧
    ((tour.filed "tour" ["a", "d=1,2", "c"]).invocation .initial .exec).log = .off ∧
    (tour.filed "tour" ["a", "d=1,2", "c"]).Retold .standard tourReader .ansi
      (((tour.filed "tour" ["a", "d=1,2", "c"]).invocation .initial .exec).run true tourReader)
      (((tour.filed "tour" ["a", "d=1,2", "c"]).invocation .initial .trace).run false tourReader) ∧
    (((tour.filed "tour" ["a", "d=1,2", "c"]).invocation .initial .exec).run true tourReader).code = 0 ∧
    tourReader (.file "tour") = .ok "a (b|c:d)* e?" ∧
    (((tour.inline "a (b|c:d)* e?" ["a", "d=1,2", "c"]).invocation .initial .trace).run true tourReader).code =
      (((tour.filed "tour" ["a", "d=1,2", "c"]).invocation .initial .trace).run true tourReader).code := by
  have hwrites : Writers.standard.Serializes := Writers.returns_standard.serializes
  have hcolor : (tour.filed "tour" ["a", "d=1,2", "c"]).color = some .always := rfl
  have hread : tourReader (.file "tour") = .ok "a (b|c:d)* e?" := rfl
  refine ⟨hwrites, rfl, ?_, by decide +kernel, hread, ?_⟩
  · exact same_walk.1 hwrites hcolor nofun rfl true false tourReader
  · exact (same_walk.2 rfl (by decide) hread tour .initial .standard ["a", "d=1,2", "c"] true).1

end CallGrammar
