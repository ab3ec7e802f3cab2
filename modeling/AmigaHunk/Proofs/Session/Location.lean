import AmigaHunk.Proofs.Session.Covering
import AmigaHunk.Proofs.Session.Memory

/-! From an address to its location: when there is one, where it comes from, and all that the
question does on the way. -/
namespace AmigaHunk

theorem TextCache.linesIn_eq_ok_iff {fs : FileSystem} {path : String} {lines : List String} :
    linesIn fs path = .ok lines ↔
      ∃ bytes, fs.read path = .ok bytes ∧ Lines.split (Utf8.decode bytes) = lines := by
  rw [linesIn]
  cases fs.read path <;> simp

namespace Session

variable {α : Type} {fs : FileSystem} {s : Session} {turns : List Turn} {t : LineTable}
  {path : String} {lines : List String} {segment : Nat} {offset line : UInt32}

/-- What can come of asking for the text of a line: the text, with the calls and the warnings on the
way, and the texts that the session has then. -/
inductive Quotes (fs : FileSystem) (texts : TextCache) (path : String) (line : UInt32) :
    Option String → List Call → List Warning → TextCache → Prop where
  | unnumbered (h : line = 0) : Quotes fs texts path line none [] [] texts
  | known {lines : List String} (h : line ≠ 0) (hlookup : texts.files.lookup path = some lines) :
    Quotes fs texts path line lines[line.toNat - 1]? [] [] texts
  | unreadable {cause : String} (h : line ≠ 0) (hlookup : texts.files.lookup path = none)
    (hread : fs.read path = .error cause) :
    Quotes fs texts path line none [.read path] [.noSourceText (.sourceUnreadable path cause)] texts
  | read {bytes : List UInt8} (h : line ≠ 0) (hlookup : texts.files.lookup path = none)
    (hread : fs.read path = .ok bytes) :
    Quotes fs texts path line (Lines.split (Utf8.decode bytes))[line.toNat - 1]? [.read path] []
      ⟨(path, Lines.split (Utf8.decode bytes)) :: texts.files⟩

theorem textFor_of_ne_zero (h : line ≠ 0) (path : String) :
    textFor path line = textLine path (line.toNat - 1) >>= fun
      | .ok text => pure text
      | .error e => (Query.warn (.noSourceText e) : Action Unit) >>= fun _ => pure none :=
  if_neg h

theorem quotes_textFor (fs : FileSystem) (path : String) (line : UInt32) (s : Session) :
    ∃ texts, (perform fs (textFor path line) s).2 = { s with texts } ∧
      Quotes fs s.texts path line (perform fs (textFor path line) s).1
        (called fs (textFor path line) s) (warned fs (textFor path line) s) texts := by
  by_cases h : line = 0
  · have htext : textFor path line = pure none := if_pos h
    rw [htext]
    exact ⟨s.texts, rfl, .unnumbered h⟩
  rw [textFor_of_ne_zero h, perform_bind, called_bind, warned_bind]
  cases hlookup : s.texts.files.lookup path with
  | some lines =>
    simp only [perform, called, warned, run_textLine_of_lookup hlookup]
    exact ⟨s.texts, rfl, .known h hlookup⟩
  | none =>
    cases hread : fs.read path with
    | error cause =>
      have hlines : TextCache.linesIn fs path = .error (.sourceUnreadable path cause) := by
        rw [TextCache.linesIn, hread]
      simp only [perform, called, warned, run_textLine_of_error hlookup hlines]
      exact ⟨s.texts, rfl, .unreadable h hlookup hread⟩
    | ok bytes =>
      have hlines : TextCache.linesIn fs path = .ok (Lines.split (Utf8.decode bytes)) := by
        rw [TextCache.linesIn, hread]
      simp only [perform, called, warned, run_textLine_of_ok hlookup hlines]
      exact ⟨_, rfl, .read h hlookup hread⟩

/-- The texts behind an action are those before it, and lines of files as they are meanwhile. -/
def AddsTexts (act : Action α) : Prop :=
  ∀ fs s path lines, (perform fs act s).2.texts.files.lookup path = some lines →
    s.texts.files.lookup path = some lines ∨ TextCache.linesIn fs path = .ok lines

theorem addsTexts_textLine (path : String) (index : Nat) : AddsTexts (textLine path index) := by
  intro fs s other lines h
  cases hlookup : s.texts.files.lookup path with
  | some known =>
    rw [perform, run_textLine_of_lookup hlookup] at h
    exact .inl h
  | none =>
    cases hlines : TextCache.linesIn fs path with
    | error e =>
      rw [perform, run_textLine_of_error hlookup hlines] at h
      exact .inl h
    | ok found =>
      rw [perform, run_textLine_of_ok hlookup hlines] at h
      obtain h | ⟨rfl, rfl⟩ := (lookup_cons_eq_some_iff hlookup).1 h
      · exact .inl h
      · exact .inr hlines

theorem addsTexts_inquiring : Inquiring AddsTexts where
  pure _ _ _ _ _ h := .inl h
  bind hact hf fs s path lines h := by
    rw [perform_bind] at h
    cases hf _ fs _ path lines h with
    | inl h => exact hact fs s path lines h
    | inr h => exact .inr h
  get _ hf fs s path lines h := hf s fs s path lines h
  resolveName name _ _ _ _ h := by
    rw [resolveName, perform_withResolver] at h
    exact .inl h
  textLine path index := addsTexts_textLine path index
  warn _ _ _ _ _ h := .inl h

theorem lookup_texts_ask {turn : Turn} (h : (s.ask turn).2.texts.files.lookup path = some lines) :
    s.texts.files.lookup path = some lines ∨ TextCache.linesIn turn.files path = .ok lines := by
  obtain ⟨files, request⟩ := turn
  cases request with
  | load file =>
    rw [ask_of_map (load file) rfl] at h
    have hloads := loads_load files file s
    generalize perform files (load file) s = result at hloads h
    cases hloads with
    | loaded _ _ _ => cases h
    | _ => exact .inl h
  | _ => exact addsTexts_inquiring.answer rfl files s path lines h

/-- What a session has of a file, it had at the start or has from an earlier turn. -/
theorem exists_turn_of_lookup (h : (s.after turns).texts.files.lookup path = some lines) :
    s.texts.files.lookup path = some lines ∨
      ∃ turn ∈ turns, TextCache.linesIn turn.files path = .ok lines := by
  induction turns generalizing s with
  | nil => exact .inl h
  | cons turn turns ih =>
    obtain hlookup | ⟨later, hlater, hlines⟩ := ih h
    · exact (lookup_texts_ask hlookup).imp_right fun hlines => ⟨turn, List.mem_cons_self, hlines⟩
    · exact .inr ⟨later, List.mem_cons_of_mem turn hlater, hlines⟩

/-- The bytes that the text of a file is made of: those that it had in an earlier turn, if the lines
are known since, or else those that it has. -/
inductive MadeOf (turns : List Turn) (fs : FileSystem) (texts : TextCache) (path : String)
    (bytes : List UInt8) : Prop where
  | known (hlookup : texts.files.lookup path = some (Lines.split (Utf8.decode bytes)))
    (hturn : ∃ turn ∈ turns, turn.files.read path = .ok bytes)
  | readable (hlookup : texts.files.lookup path = none) (hread : fs.read path = .ok bytes)

namespace Quotes
variable {texts texts' : TextCache} {text : Option String} {calls : List Call}
  {warnings : List Warning}

theorem calls_eq (h : Quotes fs texts path line text calls warnings texts') :
    calls = if line = 0 ∨ (texts.files.lookup path).isSome = true then [] else [.read path] := by
  cases h with
  | unnumbered h => simp [h]
  | known h hlookup => simp [hlookup]
  | unreadable h hlookup hread => simp [h, hlookup]
  | read h hlookup hread => simp [h, hlookup]

theorem text_iff (h : Quotes fs texts path line text calls warnings texts')
    (htexts : ∀ lines, texts.files.lookup path = some lines →
      ∃ turn ∈ turns, TextCache.linesIn turn.files path = .ok lines) (found : String) :
    text = some found ↔ line ≠ 0 ∧ ∃ bytes, MadeOf turns fs texts path bytes ∧
      (Lines.split (Utf8.decode bytes))[line.toNat - 1]? = some found := by
  cases h with
  | unnumbered h => simp [h]
  | @known lines h hlookup =>
    constructor
    · intro hfound
      obtain ⟨turn, hturn, hlines⟩ := htexts lines hlookup
      obtain ⟨bytes, hread, rfl⟩ := TextCache.linesIn_eq_ok_iff.1 hlines
      exact ⟨h, bytes, .known hlookup ⟨turn, hturn, hread⟩, hfound⟩
    · rintro ⟨-, bytes, ⟨hknown, -⟩ | ⟨hnot, -⟩, hfound⟩
      · rw [hlookup, Option.some.injEq] at hknown
        rwa [hknown]
      · cases hlookup.symm.trans hnot
  | unreadable h hlookup hfail =>
    simp only [reduceCtorEq, false_iff]
    rintro ⟨-, bytes, ⟨hknown, -⟩ | ⟨-, hread⟩, -⟩
    · cases hlookup.symm.trans hknown
    · cases hfail.symm.trans hread
  | @read bytes h hlookup hread =>
    constructor
    · exact fun hfound => ⟨h, bytes, .readable hlookup hread, hfound⟩
    · rintro ⟨-, other, ⟨hknown, -⟩ | ⟨-, hother⟩, hfound⟩
      · cases hlookup.symm.trans hknown
      · rwa [Except.ok.inj (hread.symm.trans hother)]

theorem warned (h : Quotes fs texts path line text calls warnings texts') {cause : String}
    (hmem : .read path ∈ calls) (hfail : fs.read path = .error cause) :
    warnings = [.noSourceText (.sourceUnreadable path cause)] := by
  cases h with
  | unnumbered h => cases hmem
  | known h hlookup => cases hmem
  | unreadable h hlookup hread => rw [Except.error.inj (hread.symm.trans hfail)]
  | read h hlookup hread => cases hread.symm.trans hfail

theorem quiet (h : Quotes fs texts path line text calls warnings texts')
    (hread : ∀ cause, .read path ∈ calls → fs.read path ≠ .error cause) : warnings = [] := by
  cases h with
  | unreadable h hlookup hfail => exact absurd hfail (hread _ (List.mem_singleton_self _))
  | _ => rfl

end Quotes

/-- How a session locates an offset that a table covers. -/
structure Located (turns : List Turn) (s : Session) (fs : FileSystem) (t : LineTable)
    (offset : UInt32) (loc : Location) (trace : Trace (Option Location × Session)) : Prop where
  line_eq : t.findLine offset = some loc.line
  file_eq : loc.file = (perform fs (resolveName t.name) s).1
  /-- No other name is resolved. -/
  resolver_eq : trace.value.2.resolver = (perform fs (resolveName t.name) s).2.resolver
  lookup_eq : ∀ name ≠ t.name, trace.value.2.resolver.resolved.lookup name =
    s.resolver.resolved.lookup name
  isProbe : ∀ call ∈ called fs (resolveName t.name) s, call.isProbe = true
  calls_eq : trace.calls = called fs (resolveName t.name) s ++
    if loc.line = 0 ∨ (s.texts.files.lookup loc.file).isSome = true then [] else [.read loc.file]
  text_iff : ∀ text, loc.text = some text ↔ loc.line ≠ 0 ∧ ∃ bytes,
    MadeOf turns fs s.texts loc.file bytes ∧
      (Lines.split (Utf8.decode bytes))[loc.line.toNat - 1]? = some text
  /-- A failed read is the one thing to be warned of. -/
  warned : ∀ cause, .read loc.file ∈ trace.calls → fs.read loc.file = .error cause →
    trace.warnings = [.noSourceText (.sourceUnreadable loc.file cause)]
  quiet : (∀ cause, .read loc.file ∈ trace.calls → fs.read loc.file ≠ .error cause) →
    trace.warnings = []

theorem run_locate_of_none (h : s.hunks[segment]?.bind (covering · offset) = none)
    (fs : FileSystem) : ((locate segment offset).run s).run fs = ⟨(none, s), [], []⟩ := by
  rw [locate, StateT.run_bind, StateT.run_get, pure_bind, h]
  rfl

/-- The location of a line of the source of a table. -/
def locationIn (t : LineTable) (line : UInt32) : Action (Option Location) := do
  let file ← resolveName t.name
  return some ⟨file, line, ← textFor file line⟩

theorem run_locate_of_some (h : s.hunks[segment]?.bind (covering · offset) = some (t, line)) :
    (locate segment offset).run s = (locationIn t line).run s := by
  rw [locate, StateT.run_bind, StateT.run_get, pure_bind, h]
  rfl

theorem isProbe_of_mem_called {name : String} {call : Call}
    (h : call ∈ called fs (resolveName name) s) : call.isProbe = true := by
  cases hlookup : s.resolver.resolved.lookup name with
  | some path =>
    rw [called_resolveName_of_lookup hlookup] at h
    cases h
  | none =>
    have hprobes : (s.resolver.config.resolve name).Probes fs _ := PathConfig.probes_resolve _ _
    rw [called_resolveName_of_not_lookup hlookup] at h
    exact hprobes.isProbe call h

theorem lookup_resolveName_of_ne {name other : String} (h : other ≠ name) (fs : FileSystem)
    (s : Session) : (perform fs (resolveName name) s).2.resolver.resolved.lookup other =
      s.resolver.resolved.lookup other := by
  cases hlookup : s.resolver.resolved.lookup name with
  | some path => rw [perform_resolveName_of_lookup fs hlookup]
  | none =>
    rw [perform_resolveName_of_not_lookup fs hlookup, List.lookup_cons, beq_eq_false_iff_ne.2 h]

theorem located_locationIn (fs : FileSystem) (hline : t.findLine offset = some line)
    (htexts : ∀ path lines, s.texts.files.lookup path = some lines →
      ∃ turn ∈ turns, TextCache.linesIn turn.files path = .ok lines) :
    let trace := ((locationIn t line).run s).run fs
    ∃ loc, trace.value.1 = some loc ∧ Located turns s fs t offset loc trace := by
  intro trace
  let file := (perform fs (resolveName t.name) s).1
  let next := (perform fs (resolveName t.name) s).2
  have hnext : next.texts = s.texts := by
    simp only [next, resolveName, perform_withResolver]
  obtain ⟨texts, hbehind, hquotes⟩ := quotes_textFor fs file line next
  rw [hnext] at hquotes
  have hvalue : trace.value =
      (some ⟨file, line, (perform fs (textFor file line) next).1⟩, { next with texts }) := by
    change perform fs (locationIn t line) s = _
    rw [locationIn, perform_bind, perform_bind, perform_pure, hbehind]
  have hcalls : trace.calls = called fs (resolveName t.name) s ++
      called fs (textFor file line) next := by
    change called fs (locationIn t line) s = _
    rw [locationIn, called_bind, called_bind]
    exact congrArg _ (List.append_nil _)
  have hwarnings : trace.warnings = warned fs (textFor file line) next := by
    change warned fs (locationIn t line) s = _
    rw [locationIn, warned_bind, warned_bind, warned_resolveName]
    exact List.append_nil _
  -- The probes are for the name, so a read is for the text.
  have hread : .read file ∈ trace.calls ↔ .read file ∈ called fs (textFor file line) next := by
    rw [hcalls, List.mem_append]
    exact or_iff_right fun hprobe => Bool.false_ne_true (isProbe_of_mem_called hprobe)
  refine ⟨⟨file, line, (perform fs (textFor file line) next).1⟩, congrArg Prod.fst hvalue, ?_⟩
  exact {
    line_eq := hline
    file_eq := rfl
    resolver_eq := by rw [hvalue]
    lookup_eq := fun name hname => by
      rw [hvalue]
      exact lookup_resolveName_of_ne hname fs s
    isProbe := fun call => isProbe_of_mem_called
    calls_eq := by rw [hcalls, hquotes.calls_eq]
    text_iff := hquotes.text_iff (htexts file)
    warned := fun cause hmem hfail => hwarnings.trans (hquotes.warned (hread.1 hmem) hfail)
    quiet := fun hnone => hwarnings.trans <| hquotes.quiet fun cause hmem =>
      hnone cause (hread.2 hmem) }

/-- Whatever requests a session has answered before: it locates nothing exactly if the segment does
not exist or all its entries are before the offset, and then nothing happens. Otherwise the first
table with an entry at the offset or behind it decides, and nothing happens but what its location
takes. -/
theorem locate_complete (hunks : List Hunk) (config : PathConfig) (turns : List Turn)
    (fs : FileSystem) (segment : Nat) (offset : UInt32) :
    let s := (start hunks config).after turns
    let trace := ((locate segment offset).run s).run fs
    (trace.value.1 = none ↔ s.hunks.length ≤ segment ∨
      ∃ h, s.hunks[segment]? = some h ∧ ∀ t ∈ h.tableList, ∀ e ∈ t.entries, e.offset < offset) ∧
    (trace.value.1 = none → trace.calls = [] ∧ trace.events = [] ∧ trace.value.2 = s) ∧
    ∀ loc, trace.value.1 = some loc → ∃ h before t after, s.hunks[segment]? = some h ∧
      h.tableList = before ++ t :: after ∧ (∀ u ∈ before, ∀ e ∈ u.entries, e.offset < offset) ∧
      (∃ e ∈ t.entries, offset ≤ e.offset) ∧ Located turns s fs t offset loc trace := by
  intro s trace
  have htexts : ∀ path lines, s.texts.files.lookup path = some lines →
      ∃ turn ∈ turns, TextCache.linesIn turn.files path = .ok lines := by
    intro path lines h
    exact (exists_turn_of_lookup h).resolve_left nofun
  rw [← bind_covering_eq_none_iff]
  cases hcovering : s.hunks[segment]?.bind (covering · offset) with
  | none =>
    have htrace : trace = ⟨(none, s), [], []⟩ := run_locate_of_none hcovering fs
    rw [htrace]
    exact ⟨iff_of_true rfl rfl, fun _ => ⟨rfl, rfl, rfl⟩, nofun⟩
  | some found =>
    obtain ⟨t, line⟩ := found
    obtain ⟨h, before, after, hget, hsplit, hline, hbefore⟩ :=
      bind_covering_eq_some_iff.1 hcovering
    have htrace : trace = ((locationIn t line).run s).run fs :=
      congrArg (Query.run fs) (run_locate_of_some hcovering)
    obtain ⟨loc, hloc, hlocated⟩ := located_locationIn fs hline htexts
    rw [← htrace] at hloc hlocated
    have hreaches : ∃ e ∈ t.entries, offset ≤ e.offset := by
      have hsome : t.findLine offset ≠ none := by simp [hline]
      simpa [LineTable.findLine_eq_none_iff] using hsome
    rw [hloc]
    refine ⟨by simp, nofun, ?_⟩
    rintro _ ⟨⟩
    exact ⟨h, before, t, after, hget, hsplit, hbefore, hreaches, hlocated⟩

/-- The second table decides, and it has no line in front of its entries, so nothing is read. -/
example :
    let tables : List LineTable := [⟨"a.c", [⟨0, 7⟩]⟩, ⟨"b.c", [⟨2, 8⟩]⟩]
    let s := start [⟨0, .code, .any, 4, none, none, none, some tables⟩] ⟨[], ["/work"], []⟩
    let trace := ((locate 0 1).run s).run ⟨fun _ => true, fun _ => .ok []⟩
    trace.value.1 = some ⟨"/work/b.c", 0, none⟩ ∧ trace.calls = [.probe "/work/b.c"] := by
  decide +kernel

end Session
end AmigaHunk
