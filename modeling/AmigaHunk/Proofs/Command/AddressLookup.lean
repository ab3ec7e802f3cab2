import AmigaHunk.Proofs.Command.Run
import AmigaHunk.Proofs.File.Charge
import AmigaHunk.Proofs.Session.LineAddress
import AmigaHunk.Proofs.Text.Numeral

/-! From the address of a line to its location, as two runs of the program. What the first one
prints is read by the second one, which finds a location for it. How a line of arguments is parsed
and a log is written is left open. -/
namespace AmigaHunk

open Session (perform)

namespace Session
variable {fs : FileSystem} {s : Session} {file : String} {line : UInt32} {a : Address}

theorem segment_lt_of_address (h : (perform fs (address file line) s).1 = some a) :
    a.segment < s.hunks.length := by
  obtain ⟨hunk, -, hget, -⟩ := exists_hunk_of_address h
  exact (List.getElem?_eq_some_iff.1 hget).1

/-- The table that supplies the address of a line covers it, for any session about the binary. -/
theorem exists_location (h : (perform fs (address file line) s).1 = some a)
    (fs' : FileSystem) (s' : Session) (hhunks : s'.hunks = s.hunks) :
    ∃ loc, (perform fs' (locate a.segment a.offset) s').1 = some loc := by
  obtain ⟨hunk, s₁, hget, hoffset⟩ := exists_hunk_of_address h
  obtain ⟨tables, t, rest, hsplit, hline, -⟩ :=
    exists_supplier fs (congrArg Prod.fst hoffset) (.refl _)
  obtain ⟨⟨u, found⟩, hcovering⟩ := Option.isSome_iff_exists.1 (exists_covering hsplit hline)
  rw [← hhunks] at hget
  obtain ⟨text, hloc⟩ := perform_locate_of_covering fs' hget hcovering
  exact ⟨_, hloc⟩

end Session

namespace Task
variable {fs : FileSystem} {s : Session} {lines : List String}

theorem address_report {file : String} {line : UInt32} :
    (perform fs (address file line).report s).1 = .ok lines ↔
      ∃ a, (perform fs (Session.address file line) s).1 = some a ∧ lines = [a.label] := by
  rw [report, Session.perform_bind]
  cases (perform fs (Session.address file line) s).1 with
  | none => exact ⟨nofun, nofun⟩
  | some a => simp [Session.perform_pure, eq_comm]

theorem lookup_report {segment : Nat} {offset : UInt32} :
    (perform fs (lookup segment offset).report s).1 = .ok lines ↔
      ∃ loc, (perform fs (Session.locate segment offset) s).1 = some loc ∧
        lines = [loc.label] := by
  rw [report, Session.perform_bind]
  cases (perform fs (Session.locate segment offset) s).1 with
  | none => exact ⟨nofun, nofun⟩
  | some loc => simp [Session.perform_pure, eq_comm]

end Task

theorem File.length_hunks_lt {bytes : List UInt8} {hunks : List Hunk}
    (h : (decode bytes).result = .ok hunks) : hunks.length < bytes.length := by
  have hcharge := sum_charge_le h
  rw [sum_charge_eq] at hcharge
  omega

theorem Address.label_eq (a : Address) :
    a.label = Numeral.decimal a.segment ++ ":" ++ ("0x" ++ Numeral.hex8 a.offset) := by
  change Numeral.decimal a.segment ++ (":" ++ "0x") ++ Numeral.hex8 a.offset = _
  simp only [String.append_assoc]

/-- What is reported of a line comes from its address, and of that address there is a report as long
as the program is the same file, whatever the other files are. -/
theorem Command.report_address {fs : FileSystem} {s : Session} {program : HostText} {file : String}
    {line : UInt32} {lines : List String}
    (h : (perform fs (report ⟨program, .address file line⟩) s).1 = .ok lines) :
    ∃ bytes hunks a, fs.read program = .ok bytes ∧ (File.decode bytes).result = .ok hunks ∧
      (perform fs (Session.address file line) (.start hunks s.resolver.config)).1 = some a ∧
      lines = [a.label] ∧
      ∀ (fs' : FileSystem) (s' : Session), fs'.has program = fs.has program →
        fs'.read program = fs.read program →
        ∃ lines',
          (perform fs' (report ⟨program, .lookup a.segment a.offset⟩) s').1 = .ok lines' := by
  obtain ⟨bytes, hunks, hhas, hread, hdecode, htask⟩ := report_eq_ok_iff.1 h
  obtain ⟨a, ha, rfl⟩ := Task.address_report.1 htask
  refine ⟨bytes, hunks, a, hread, hdecode, ha, rfl, fun fs' s' hhas' hread' => ?_⟩
  obtain ⟨loc, hloc⟩ := Session.exists_location ha fs' (.start hunks s'.resolver.config) rfl
  have htask' := Task.lookup_report.2 ⟨loc, hloc, rfl⟩
  exact ⟨[loc.label], report_eq_ok_iff.2
    ⟨bytes, hunks, hhas'.trans hhas, hread'.trans hread, hdecode, htask'⟩⟩

namespace CommandLine
variable {line : CommandLine} {command : Command}

theorem command?_address {file number : String} (hverb : line.verb = .address)
    (hoperands : line.operands = [file, number]) : line.command? = some command ↔
      ∃ n, Operand.line? number = some n ∧ ⟨line.program, .address file n⟩ = command := by
  simp only [command?, task?, hverb, hoperands]
  cases Operand.line? number <;> simp

theorem command?_lookup {segment offset : String} {a : Address} (hverb : line.verb = .lookup)
    (hoperands : line.operands = [segment, offset])
    (hsegment : Operand.segment? segment = some a.segment)
    (hoffset : Operand.offset offset = .ok a.offset) :
    line.command? = some ⟨line.program, .lookup a.segment a.offset⟩ := by
  simp only [command?, task?, hverb, hoperands, hsegment, hoffset]
  rfl

end CommandLine

namespace Platform
variable {Args Filter σ : Type} {parse : Args → Except Exit CommandLine}
  {log : LogHost Filter (StateM σ)} {working : Except String HostText} {fs : FileSystem}
  {args : Args} {w : σ} {options : Options} {program : HostText} {listed : Option String}
  {file number : String}

/-- A run for the address of a line that ends with exit code zero prints it as a segment in decimal,
a colon, and an offset in eight hexadecimal digits, which are read back as the address that has been
found. Behind it, any run that looks these texts up in the same program with the same options ends
with exit code zero, if the program is still the same file. The length of a file is below the bound
of the numbers that are read. -/
theorem address_feeds_lookup (hparse : parse args =
      .ok ⟨options, .address, program, listed, [file, number]⟩)
    (hcode : (((still parse log working fs).run args).run w).1.code = 0) (hlog : log.Reopens)
    (hlength : ∀ bytes, fs.read program = .ok bytes → bytes.length < 2 ^ 64) :
    let first := ((still parse log working fs).run args).run w
    ∃ config line bytes hunks a segment digits, options.paths working = .ok config ∧
      Operand.line? number = some line ∧ fs.read program = .ok bytes ∧
      (File.decode bytes).result = .ok hunks ∧
      (perform fs (Session.address file line) (.start hunks config)).1 = some a ∧
      first.1.output = [segment ++ ":" ++ ("0x" ++ digits)] ∧
      Numeral.IsDecimal segment ∧ Numeral.IsHex8 digits ∧
      Operand.segment? segment = some a.segment ∧
      Operand.offset ("0x" ++ digits) = .ok a.offset ∧
      ∀ args' listed', parse args' =
          .ok ⟨options, .lookup, program, listed', [segment, "0x" ++ digits]⟩ →
        ∀ fs' : FileSystem, fs'.has program = fs.has program →
          fs'.read program = fs.read program →
          (((still parse log working fs').run args').run first.2).1.code = 0 := by
  intro first
  obtain ⟨command, write, w', config, lines, events, hcommand, hsetUp, hpaths, hreport, hrun⟩ :=
    exists_report_of_run_still hparse hcode
  obtain ⟨line, hline, rfl⟩ := (CommandLine.command?_address rfl rfl).1 hcommand
  obtain ⟨bytes, hunks, a, hread, hdecode, ha, rfl, hlookup⟩ := Command.report_address hreport
  have hfirst : first = (⟨0, [a.label], []⟩, Event.written write events w') := hrun
  have hsegment : Operand.segment? (Numeral.decimal a.segment) = some a.segment :=
    Operand.segment?_decimal <|
      calc a.segment < hunks.length := Session.segment_lt_of_address ha
        _ < bytes.length := File.length_hunks_lt hdecode
        _ < 2 ^ 64 := hlength bytes hread
  have hoffset := Operand.offset_hex8 a.offset
  refine ⟨config, line, bytes, hunks, a, Numeral.decimal a.segment, Numeral.hex8 a.offset, hpaths,
    hline, hread, hdecode, ha, by rw [hfirst, a.label_eq], Numeral.isDecimal_decimal _,
    Numeral.isHex8_hex8 _, hsegment, hoffset, fun args' listed' hparse' fs' hhas' hread' => ?_⟩
  obtain ⟨again, w'', hagain⟩ := hlog.run_setUp hsetUp events
  obtain ⟨lines', hlines'⟩ := hlookup fs' (.start [] config) hhas' hread'
  obtain ⟨events', hsecond⟩ := run_still fs' hparse'
    (CommandLine.command?_lookup rfl rfl hsegment hoffset) hagain hpaths
  rw [hfirst, hsecond, hlines']
  rfl

/-- A parser of command lines without options. -/
def words : List String → Except Exit CommandLine
  | ["address", program, file, line] =>
    .ok ⟨⟨[], [], [], none⟩, .address, program, none, [file, line]⟩
  | ["lookup", program, segment, offset] =>
    .ok ⟨⟨[], [], [], none⟩, .lookup, program, none, [segment, offset]⟩
  | _ => .error .misuse

/-- The events on the screen, and those in the log file. -/
structure Journal where
  screen : List Event
  file : List Event
  deriving DecidableEq

/-- A log up to level `info`, on the screen and in a file. -/
def journal : LogHost LogLevel (StateM Journal) where
  filters := ⟨id, fun text => (LogLevel.parse? text).elim (.error "invalid filter") .ok⟩
  getVariable name :=
    [(LogConfig.directivesVariable, "info"), (LogConfig.fileVariable, "run.log")].lookup name
  date := "2024-03-01"
  screen level _ e := modify fun j =>
    if e.level.rank ≤ level.rank then { j with screen := j.screen ++ [e] } else j
  makeDirectory _ := pure (.ok ())
  openFile _ level _ := pure <| some fun e => modify fun j =>
    if e.level.rank ≤ level.rank then { j with file := j.file ++ [e] } else j

/-- A directory with a program whose source is not there. -/
def workshop : FileSystem := Store.fileSystem [("prog", some File.packedLines)]

/-- The binary has no end mark, so both logs hold a warning, too. -/
theorem lookup_of_printed_address :
    let p := still words journal (.ok "/work") workshop
    let first := (p.run ["address", "prog", "a.c", "8"]).run ⟨[], []⟩
    let told := [Event.warning (.endsOpen 0), .loaded "prog" 1]
    first.1 = ⟨0, ["0:0x00000004"], []⟩ ∧ first.2 = ⟨told, told⟩ ∧
      ((p.run ["lookup", "prog", "0", "0x00000004"]).run first.2).1.code = 0 := by
  intro p first told
  have hexit : first.1 = ⟨0, ["0:0x00000004"], []⟩ := by decide +kernel
  have hbehind : first.2 = ⟨told, told⟩ := by decide +kernel
  have hparse : words ["address", "prog", "a.c", "8"] =
      .ok ⟨⟨[], [], [], none⟩, .address, "prog", none, ["a.c", "8"]⟩ := rfl
  have hlog : journal.Reopens := fun _ _ _ _ _ _ _ _ _ _ => ⟨_, _, _, rfl, rfl⟩
  have hlength : ∀ bytes, workshop.read "prog" = .ok bytes → bytes.length < 2 ^ 64 := by
    intro bytes hbytes
    obtain rfl : File.packedLines = bytes := Except.ok.inj hbytes
    decide +kernel
  obtain ⟨_, _, _, _, _, segment, digits, -, -, -, -, -, houtput, -, hdigits, -, -, hlookup⟩ :=
    address_feeds_lookup hparse (congrArg Exit.code hexit) hlog hlength
  have htext : [segment ++ ":" ++ ("0x" ++ digits)] = ["0:0x00000004"] :=
    houtput.symm.trans (congrArg Exit.output hexit)
  have hparts : segment.toList ++ ([':', '0', 'x'] ++ digits.toList) =
      ['0'] ++ ([':', '0', 'x'] ++ ("00000004" : String).toList) := by
    simpa using congrArg String.toList (List.cons.inj htext).1
  obtain ⟨hsegment, hdigits⟩ := List.append_inj' hparts (by simp [hdigits.1])
  obtain rfl : segment = "0" := String.toList_inj.1 hsegment
  obtain rfl : digits = "00000004" := String.toList_inj.1 (List.append_cancel_left hdigits)
  exact ⟨hexit, hbehind, hlookup _ none rfl workshop rfl rfl⟩

end Platform
end AmigaHunk
