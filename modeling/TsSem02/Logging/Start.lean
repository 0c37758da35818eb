import TsSem02.Library.Dictionary
import TsSem02.Logging.Reopening
import TsSem02.Logging.Selection

/-! # From the configuration to the messages

`ServiceImpl::Start` makes a sink for every appender and a logger for every entry of
the configuration.  Afterwards a message for any name goes to the appenders of the
closest logger of the configuration (`start_delivers`), and `reopen_all` opens the
files of the appenders that some logger uses (`start_reopens`).
-/

namespace Afina.Logging

open Dictionary

/-! ## `Config.h` -/

/-- `Appender::Type`; the member is not initialized, so it may be no enumerator. -/
inductive AppenderType where
  | STDOUT
  | STDERR
  | FILE
  | DAILY
  | SIZED
  | SYSLOG
  | invalid
deriving DecidableEq, Repr

structure Appender where
  type : AppenderType
  color : Bool
  file : Bytes
  rotateAtHours : Int
  rotateAtMins : Int
  rotateAtSize : Nat
  historyToKeep : Int
  ident : Bytes
  option : Int
  facility : Int
deriving DecidableEq, Repr

/-- `Logger::Level` -/
inductive ConfigLevel where
  | CRITICAL
  | ERROR
  | WARNING
  | INFO
  | DEBUG
  | TRACE
  | invalid
deriving DecidableEq, Repr

structure LoggerConfig where
  level : ConfigLevel
  format : Bytes
  appenders : List Bytes
deriving DecidableEq, Repr

structure Config where
  appenders : AList fun _ : Bytes => Appender
  loggers : AList fun _ : Bytes => LoggerConfig

/-! ## The sinks -/

inductive Console where
  | stdout
  | stderr
deriving DecidableEq, Repr

/-- A sink that is made for an appender.  The name of the appender tells it from the
    sinks that are made for others; the two consoles have one instance each. -/
inductive AppenderSink where
  | console (which : Console)
  | ansicolorSink (appender : Bytes) (wrapped : Console)
  | extRotateFileSink (appender file : Bytes)
  | dailyFileSink (appender file : Bytes) (hour minute : Int)
  | rotatingFileSink (appender file : Bytes) (size : Nat) (keep : Int)
  | syslogSink (appender ident : Bytes) (option facility : Int)
deriving DecidableEq, Repr

/-- A sink of a logger: one of an appender, or the `dist_sink_st` that is made for the
    logger. -/
inductive StartSink where
  | single (sink : AppenderSink)
  | dist (logger : Bytes) (sinks : List (Option AppenderSink))
deriving DecidableEq, Repr

/-- As `dynamic_cast` tells them from each other. -/
def StartSink.sink : StartSink → Sink StartSink
  | .single (.extRotateFileSink _ _) => .extRotateFileSink .mt
  | .single _ => .other
  | .dist _ sinks => .distSink .st (sinks.map (·.map .single))

/-! ## `Start` -/

inductive StartFault where
  | invalidAppenderType   -- "Invalid appender type"
  | invalidRotationTime   -- of `daily_file_sink`
  | cannotOpen            -- of `file_helper`
  | loggerExists          -- of `register_logger`
  | rootNotConfigured     -- "Root logger not configured"
deriving DecidableEq, Repr

/-- The `switch` over the type of an appender; `opens` says whether its file can be
    opened. -/
def Appender.makeSink (opens : Bytes → Bool) (name : Bytes) (appender : Appender) : Except StartFault AppenderSink :=
  match appender.type with
  | .STDOUT => .ok (if appender.color then .ansicolorSink name .stdout else .console .stdout)
  | .STDERR => .ok (if appender.color then .ansicolorSink name .stderr else .console .stderr)
  | .FILE => if opens name then .ok (.extRotateFileSink name appender.file) else .error .cannotOpen
  | .DAILY =>
    if appender.rotateAtHours < 0 ∨ appender.rotateAtHours > 23 ∨ appender.rotateAtMins < 0 ∨ appender.rotateAtMins > 59 then
      .error .invalidRotationTime
    else if opens name then
      .ok (.dailyFileSink name appender.file appender.rotateAtHours appender.rotateAtMins)
    else .error .cannotOpen
  | .SIZED =>
    if opens name then .ok (.rotatingFileSink name appender.file appender.rotateAtSize appender.historyToKeep)
    else .error .cannotOpen
  | .SYSLOG => .ok (.syslogSink name appender.ident appender.option appender.facility)
  | .invalid => .error .invalidAppenderType

/-- The `switch` over the level of a logger, which starts at `info`. -/
def ConfigLevel.toLevel : ConfigLevel → Level
  | .TRACE => .trace
  | .DEBUG => .debug
  | .INFO => .info
  | .WARNING => .warn
  | .ERROR => .err
  | .CRITICAL => .critical
  | .invalid => .info

abbrev Results := AList fun _ : Bytes => AppenderSink
abbrev Registry := AList fun _ : Bytes => Logger StartSink

/-- The pointer that a logger is made with.  `results[name]` is null when there is no
    appender of this name. -/
def sinkPtr (results : Results) (name : Bytes) : List Bytes → Option StartSink
  | [] => none
  | [appender] => (results.lookup appender).map .single
  | appenders => some (.dist name (appenders.map fun appender => results.lookup appender))

/-- One round of the loop over the loggers. -/
def makeLogger (results : Results) (name : Bytes) (logger : LoggerConfig) : Logger StartSink where
  name := name
  sinks := [sinkPtr results name logger.appenders]
  level := logger.level.toLevel
  pattern := logger.format
  flushLevel := .err

def registerLogger (results : Results) (registry : Registry) (name : Bytes) (logger : LoggerConfig) :
    Except StartFault (Logger StartSink) :=
  if name ∈ registry then .error .loggerExists else .ok (makeLogger results name logger)

structure Service where
  registry : Registry
  root : Logger StartSink

def rootName : Bytes := ascii "root"

/-- `ServiceImpl::Start`, with the registry of spdlog as it is before. -/
def start (opens : Bytes → Bool) (config : Config) (registry : Registry) : Except StartFault Service :=
  match insertAll (fun _ name appender => appender.makeSink opens name) config.appenders.entries ∅ with
  | .error fault => .error fault
  | .ok results =>
    match insertAll (registerLogger results) config.loggers.entries registry with
    | .error fault => .error fault
    | .ok registry =>
      match registry.lookup rootName with
      | none => .error .rootNotConfigured
      | some root => .ok ⟨registry, root⟩

/-! ## A message -/

def Level.value : Level → Nat
  | .trace => 0
  | .debug => 1
  | .info => 2
  | .warn => 3
  | .err => 4
  | .critical => 5
  | .off => 6

def Level.color : Level → Bytes
  | .trace => ascii "\x1b[36m"
  | .debug => ascii "\x1b[36m"
  | .info => ascii "\x1b[1m"
  | .warn => ascii "\x1b[33m" ++ ascii "\x1b[1m"
  | .err => ascii "\x1b[31m" ++ ascii "\x1b[1m"
  | .critical => ascii "\x1b[1m" ++ ascii "\x1b[41m"
  | .off => ascii "\x1b[00m"

/-- `ansicolor_sink::log` -/
def colored (level : Level) (text : Bytes) : Bytes := level.color ++ text ++ ascii "\x1b[00m"

/-- `details::log_msg` -/
structure LogMsg where
  level : Level
  raw : Bytes
  formatted : Bytes
deriving DecidableEq, Repr

/-- What `c_str` shows of a text. -/
def cStr (text : Bytes) : Bytes := text.takeWhile (· ≠ 0)

abbrev Output := AppenderSink × Bytes

/-- What the `log` of a sink writes.  All write the formatted text but `syslog_sink`,
    which sends `msg.raw`. -/
def AppenderSink.output (msg : LogMsg) : AppenderSink → Output
  | .ansicolorSink _ wrapped => (.console wrapped, colored msg.level msg.formatted)
  | .syslogSink appender ident option facility => (.syslogSink appender ident option facility, cStr msg.raw)
  | sink => (sink, msg.formatted)

/-- Why a loop over sinks does not go on. -/
inductive SinkFault where
  | thrown
  | nullPointer
deriving DecidableEq, Repr

/-- What has been written so far, and what ends it, if something does. -/
abbrev Written := List Output × Option SinkFault

/-- The `log` of a sink; `throws` says whether it throws when so many texts of the
    message have been written. -/
def AppenderSink.log (throws : Nat → Output → Bool) (msg : LogMsg) (sink : AppenderSink) (written : List Output) :
    Written :=
  if throws written.length (sink.output msg) then (written, some .thrown)
  else (written ++ [sink.output msg], none)

/-- `sink->should_log` and `sink->log`, through a pointer that may be null.  The level of
    a sink is `trace`, so it lets every message through. -/
def logTo (throws : Nat → Output → Bool) (msg : LogMsg) : Option AppenderSink → List Output → Written
  | none, written => (written, some .nullPointer)
  | some sink, written => sink.log throws msg written

/-- `for (auto &sink : _sinks)` of a logger and of a distribution sink. -/
def logEach {Ptr : Type} (log : Ptr → List Output → Written) : List Ptr → List Output → Written
  | [], written => (written, none)
  | sink :: sinks, written =>
    match log sink written with
    | (written, none) => logEach log sinks written
    | (written, some fault) => (written, some fault)

def StartSink.logTo (throws : Nat → Output → Bool) (msg : LogMsg) : Option StartSink → List Output → Written
  | none, written => (written, some .nullPointer)
  | some (.single sink), written => sink.log throws msg written
  | some (.dist _ sinks), written => logEach (Logging.logTo throws msg) sinks written

inductive Ending where
  | returned
  | handled      -- `_err_handler` has been called
  | nullPointer
deriving DecidableEq, Repr

structure Delivery where
  written : List Output
  ending : Ending
deriving DecidableEq, Repr

/-- The handlers of `logger::log`, which stand around the loops. -/
def caught : Written → Delivery
  | (written, none) => ⟨written, .returned⟩
  | (written, some .thrown) => ⟨written, .handled⟩
  | (written, some .nullPointer) => ⟨written, .nullPointer⟩

/-- `logger::log`; `format` makes the text of a message out of the pattern. -/
def Logger.log (format : Bytes → Bytes → Level → Bytes → Bytes) (throws : Nat → Output → Bool)
    (logger : Logger StartSink) (level : Level) (message : Bytes) : Delivery :=
  if level.value < logger.level.value then ⟨[], .returned⟩
  else
    let msg : LogMsg := ⟨level, message, format logger.pattern logger.name level message⟩
    caught (logEach (StartSink.logTo throws msg) logger.sinks [])

/-! ## What the configuration asks for -/

def Appender.output (name : Bytes) (msg : LogMsg) (appender : Appender) : Output :=
  let text := if appender.color then colored msg.level msg.formatted else msg.formatted
  match appender.type with
  | .STDOUT => (.console .stdout, text)
  | .STDERR => (.console .stderr, text)
  | .FILE => (.extRotateFileSink name appender.file, msg.formatted)
  | .DAILY => (.dailyFileSink name appender.file appender.rotateAtHours appender.rotateAtMins, msg.formatted)
  | .SIZED => (.rotatingFileSink name appender.file appender.rotateAtSize appender.historyToKeep, msg.formatted)
  | _ => (.syslogSink name appender.ident appender.option appender.facility, cStr msg.raw)

/-- The appenders of these names write in order, up to the first one that throws or
    that is not configured. -/
def Config.writeAll (config : Config) (throws : Nat → Output → Bool) (msg : LogMsg) :
    List Bytes → List Output → Written
  | [], written => (written, none)
  | name :: names, written =>
    match config.appenders.lookup name with
    | none => (written, some .nullPointer)
    | some appender =>
      if throws written.length (appender.output name msg) then (written, some .thrown)
      else config.writeAll throws msg names (written ++ [appender.output name msg])

/-- What becomes of a message for a configured logger: it is dropped when its level is
    too low, and otherwise the appenders of the logger write it, in order. -/
def Config.deliver (config : Config) (format : Bytes → Bytes → Level → Bytes → Bytes)
    (throws : Nat → Output → Bool) (name : Bytes) (logger : LoggerConfig) (level : Level) (message : Bytes) :
    Delivery :=
  if level.value < logger.level.toLevel.value then ⟨[], .returned⟩
  else if logger.appenders = [] then ⟨[], .nullPointer⟩
  else caught (config.writeAll throws ⟨level, message, format logger.format name level message⟩ logger.appenders [])

def Config.named (config : Config) (name : Bytes) : Option (Bytes × LoggerConfig) :=
  (config.loggers.lookup name).map fun logger => (name, logger)

section Delivery

variable {opens : Bytes → Bool} {config : Config} {service : Service}

variable {results : Results}

theorem lookup_results
    (ran : insertAll (fun _ name appender => appender.makeSink opens name) config.appenders.entries ∅ = .ok results)
    (name : Bytes) : (config.appenders.lookup name = none ∧ results.lookup name = none) ∨
      ∃ appender sink, config.appenders.lookup name = some appender ∧ appender.makeSink opens name = .ok sink ∧
        results.lookup name = some sink := by
  cases found : config.appenders.lookup name with
  | none =>
    have absent := AList.lookup_eq_none.mp found
    exact .inl ⟨rfl, lookup_insertAll_of_notMem ran absent⟩
  | some appender =>
    obtain ⟨-, sink, made, known⟩ := lookup_insertAll ran config.appenders.nodupKeys (AList.mem_lookup_iff.mp found)
    exact .inr ⟨appender, sink, rfl, made, known⟩

variable {throws : Nat → Output → Bool} {msg : LogMsg}

theorem deliver_of_silent {logger : LoggerConfig} {level : Level} (heard : logger.level.toLevel.value ≤ level.value)
    (nonempty : logger.appenders ≠ []) (appenderOf : Bytes → Appender)
    (configured : ∀ name ∈ logger.appenders, config.appenders.lookup name = some (appenderOf name))
    (format : Bytes → Bytes → Level → Bytes → Bytes) (name message : Bytes) :
    config.deliver format (fun _ _ => false) name logger level message =
      ⟨logger.appenders.map fun appender => (appenderOf appender).output appender
        ⟨level, message, format logger.format name level message⟩, .returned⟩ := by
  rw [Config.deliver, if_neg (Nat.not_lt_of_le heard), if_neg nonempty]
  generalize (⟨level, message, format logger.format name level message⟩ : LogMsg) = msg
  have all (names : List Bytes) (written : List Output)
      (configured : ∀ name ∈ names, config.appenders.lookup name = some (appenderOf name)) :
      config.writeAll (fun _ _ => false) msg names written =
        (written ++ names.map fun appender => (appenderOf appender).output appender msg, none) := by
    induction names generalizing written with
    | nil => rw [Config.writeAll, List.map_nil, List.append_nil]
    | cons first names ih =>
      have found := configured first List.mem_cons_self
      rw [Config.writeAll, found]
      simp only [Bool.false_eq_true, if_false, List.map_cons]
      rw [ih _ fun name member => configured name (List.mem_cons_of_mem _ member), List.append_assoc]
      rfl
  rw [all _ [] configured]
  rfl

theorem start_ok {registry : Registry} (started : start opens config registry = .ok service) : ∃ results,
    insertAll (fun _ name appender => appender.makeSink opens name) config.appenders.entries ∅ = .ok results ∧
      insertAll (registerLogger results) config.loggers.entries registry = .ok service.registry ∧
      service.registry.lookup rootName = some service.root := by
  unfold start at started
  split at started
  · cases started
  · rename_i results made
    split at started
    · cases started
    · rename_i registry' registered
      split at started
      · cases started
      · rename_i root found
        cases started
        exact ⟨results, made, registered, found⟩

theorem registerLogger_ok {registry : Registry} {name : Bytes} {logger : LoggerConfig} {made : Logger StartSink}
    (registered : registerLogger results registry name logger = .ok made) : made = makeLogger results name logger := by
  rw [registerLogger] at registered
  split at registered <;> cases registered
  rfl

theorem lookup_registry {registry : Registry}
    (ran : insertAll (registerLogger results) config.loggers.entries ∅ = .ok registry) (name : Bytes) :
    registry.lookup name = (config.named name).map fun entry => makeLogger results entry.1 entry.2 := by
  cases found : config.loggers.lookup name with
  | none =>
    rw [Config.named, found]
    exact lookup_insertAll_of_notMem ran (AList.lookup_eq_none.mp found)
  | some logger =>
    have here := AList.mem_lookup_iff.mp found
    obtain ⟨before, made, registered, known⟩ := lookup_insertAll ran config.loggers.nodupKeys here
    rw [Config.named, found, known, registerLogger_ok registered]
    rfl

section Select

variable {Pointee Other : Type} {get : Bytes → Option Pointee} {root : Option Pointee} {name : Bytes}

end Select

def colouredConfig : Config where
  appenders := ⟨[⟨ascii "console", ⟨.STDOUT, true, [], -1, -1, 0, 0, [], 0, 0⟩⟩,
    ⟨ascii "log", ⟨.FILE, false, ascii "a.log", -1, -1, 0, 0, [], 0, 0⟩⟩], by rw [List.NodupKeys]; decide⟩
  loggers := ⟨[⟨ascii "network", ⟨.DEBUG, ascii "%v", [ascii "console", ascii "log"]⟩⟩,
    ⟨rootName, ⟨.WARNING, ascii "%v", [ascii "console"]⟩⟩], by rw [List.NodupKeys]; decide⟩

example : colouredConfig.deliver (fun _ _ _ message => message) (fun count _ => count = 1) (ascii "network")
    ⟨.DEBUG, [], [ascii "console", ascii "log"]⟩ .info (ascii "hi") =
      ⟨[(.console .stdout, ascii "\x1b[1mhi\x1b[00m")], .handled⟩ := by decide +kernel

end Delivery

/-! ## The files -/

section Files

variable {opens : Bytes → Bool} {config : Config} {service : Service} {results : Results}

/-- When the queue is empty and no `reopen` has thrown, the loop has called `reopen` for
    what can be reached. -/
theorem reopened_of_finished {Ptr : Type} [DecidableEq Ptr] {graph : Ptr → Sink Ptr} {loggers : List (Logger Ptr)}
    {rounds : Nat} (empty : ((Worklist.step (links graph Sink.followed))^[rounds]
      (Worklist.start (loggers.flatMap Logger.sinks))).queue = []) :
    ((reopenRound graph fun _ => true)^[rounds] (collectSinks loggers)).Finished ∧
      ((reopenRound graph fun _ => true)^[rounds] (collectSinks loggers)).reopened.Nodup ∧
      ∀ file, file ∈ ((reopenRound graph fun _ => true)^[rounds] (collectSinks loggers)).reopened ↔
        graph file = .extRotateFileSink .mt ∧ Reachable graph Sink.followed loggers file := by
  obtain ⟨⟨steps, same, worklist⟩, reopened, threw⟩ := iterate_traces graph (fun _ => true) loggers rounds
  generalize (reopenRound graph fun _ => true)^[rounds] (collectSinks loggers) = final at *
  have invariant := Worklist.iterate_invariant (links graph Sink.followed) (loggers.flatMap Logger.sinks) rounds
  rw [same (threw.mpr fun _ _ => rfl)] at worklist
  rw [← worklist] at invariant empty
  refine ⟨.inl empty, ?_, fun file => ?_⟩
  · rw [reopened]
    refine invariant.nodup.filterMap fun a b file fromA fromB => ?_
    rw [(fileOf_eq_some.mp fromA).1, (fileOf_eq_some.mp fromB).1]
  · rw [reopened, List.mem_filterMap, Reachable, ← invariant.mem_seen_iff empty]
    simp only [fileOf_eq_some]
    constructor
    · rintro ⟨psink, seen, rfl, kind⟩
      exact ⟨kind, seen⟩
    · rintro ⟨kind, seen⟩
      exact ⟨some file, seen, rfl, kind⟩

/-- The sinks `Start` makes are at most two links deep. -/
theorem reaches_start {roots : List (Option StartSink)} {psink : Option StartSink}
    (reaches : Worklist.Reaches (links StartSink.sink Sink.followed) roots psink) : psink ∈ roots ∨
      ∃ name sinks, some (.dist name sinks) ∈ roots ∧ ∃ sink ∈ sinks, psink = sink.map StartSink.single := by
  induction reaches with
  | root member => exact .inl member
  | @next before psink _ link ih =>
    cases before with
    | none => cases link
    | some before =>
      cases before with
      | single sink => cases sink <;> cases link
      | dist name sinks =>
        obtain ⟨sink, inside, rfl⟩ := List.mem_map.mp link
        rcases ih with root | ⟨_, _, _, sink', _, below⟩
        · exact .inr ⟨name, sinks, root, sink, inside, rfl⟩
        · -- no distribution sink lies below another one
          cases sink' <;> cases below

theorem exists_finished_start (roots : List (Option StartSink)) :
    ∃ rounds, ((Worklist.step (links StartSink.sink Sink.followed))^[rounds] (Worklist.start roots)).queue = [] := by
  refine Worklist.exists_finished_of_reaches (roots ++ roots.flatMap (links StartSink.sink Sink.followed)) fun psink reaches => ?_
  rcases reaches_start reaches with root | ⟨name, sinks, root, sink, inside, rfl⟩
  · exact List.mem_append_left _ root
  · exact List.mem_append_right _ (List.mem_flatMap.mpr ⟨_, root, List.mem_map_of_mem inside⟩)

theorem mem_sinkPtr {name : Bytes} {appenders : List Bytes} {sink : AppenderSink} :
    (sinkPtr results name appenders = some (.single sink) ∨
        ∃ name' sinks, sinkPtr results name appenders = some (.dist name' sinks) ∧ some sink ∈ sinks) ↔
      ∃ appender ∈ appenders, results.lookup appender = some sink := by
  match appenders with
  | [] => simp [sinkPtr]
  | [appender] =>
    cases known : results.lookup appender <;> simp [sinkPtr, known]
  | first :: second :: others => simp [sinkPtr, @eq_comm _ (some sink)]

theorem lookup_file
    (ran : insertAll (fun _ name appender => appender.makeSink opens name) config.appenders.entries ∅ = .ok results)
    {name appender file : Bytes} : results.lookup name = some (.extRotateFileSink appender file) ↔
      ∃ entry, config.appenders.lookup name = some entry ∧ entry.type = .FILE ∧ appender = name ∧ file = entry.file := by
  rcases lookup_results ran name with ⟨missing, null⟩ | ⟨entry, sink, found, made, known⟩
  · simp [missing, null]
  · rw [found, known]
    unfold Appender.makeSink at made
    split at made
    all_goals rename_i type
    case h_1 | h_2 =>
      cases made
      cases entry.color <;> simp [type]
    case h_3 =>
      split at made <;> cases made
      simp [type, eq_comm]
    case h_4 =>
      split at made
      · cases made
      · split at made <;> cases made
        simp [type]
    case h_5 =>
      split at made <;> cases made
      simp [type]
    case h_6 =>
      cases made
      simp [type]
    case h_7 => cases made

theorem reachable_start {registry : Registry} (ran : insertAll (registerLogger results) config.loggers.entries ∅ = .ok registry)
    {sink : AppenderSink} :
    Reachable StartSink.sink Sink.followed (registry.entries.map Sigma.snd) (.single sink) ↔
      ∃ name logger, config.loggers.lookup name = some logger ∧
        ∃ appender ∈ logger.appenders, results.lookup appender = some sink := by
  have roots {psink : Option StartSink} : psink ∈ (registry.entries.map Sigma.snd).flatMap Logger.sinks ↔
      ∃ name logger, config.loggers.lookup name = some logger ∧ sinkPtr results name logger.appenders = psink := by
    have known (name : Bytes) := lookup_registry ran name
    simp only [Config.named, Option.map_map] at known
    simp only [List.mem_flatMap, List.mem_map]
    constructor
    · rintro ⟨logger, ⟨entry, member, rfl⟩, inside⟩
      have found := (known entry.1).symm.trans (AList.mem_lookup_iff.mpr member)
      obtain ⟨configured, here, made⟩ := Option.map_eq_some_iff.mp found
      refine ⟨entry.1, configured, here, ?_⟩
      rw [← made] at inside
      exact (List.mem_singleton.mp inside).symm
    · rintro ⟨name, logger, found, rfl⟩
      have here := known name
      rw [found, Option.map_some] at here
      exact ⟨_, ⟨_, AList.mem_lookup_iff.mp here, rfl⟩, List.mem_singleton_self _⟩
  constructor
  · intro reachable
    rcases reaches_start reachable with root | ⟨name, sinks, root, below, inside, same⟩
    · obtain ⟨name, logger, found, pointer⟩ := roots.mp root
      exact ⟨name, logger, found, mem_sinkPtr.mp (.inl pointer)⟩
    · obtain ⟨name', logger, found, pointer⟩ := roots.mp root
      obtain ⟨_, rfl, same⟩ := Option.map_eq_some_iff.mp same.symm
      cases same
      exact ⟨name', logger, found, mem_sinkPtr.mp (.inr ⟨name, sinks, pointer, inside⟩)⟩
  · rintro ⟨name, logger, found, used⟩
    rcases mem_sinkPtr.mpr used with pointer | ⟨name', sinks, pointer, inside⟩
    · exact .root (roots.mpr ⟨name, logger, found, pointer⟩)
    · have root : Worklist.Reaches (links StartSink.sink Sink.followed) _ (some (.dist name' sinks)) :=
        .root (roots.mpr ⟨name, logger, found, pointer⟩)
      exact root.next (List.mem_map_of_mem inside)

/-- After `Start`, `reopen_all` ends, if every file can be opened, and has opened the file
    of every `FILE` appender that some logger of the configuration uses, each once,
    and nothing else. -/
theorem start_reopens (started : start opens config ∅ = .ok service) : ∃ rounds final,
    final = (reopenRound StartSink.sink fun _ => true)^[rounds] (collectSinks (service.registry.entries.map Sigma.snd)) ∧
      final.Finished ∧ final.reopened.Nodup ∧ ∀ sink, sink ∈ final.reopened ↔
        ∃ name logger appender entry, config.loggers.lookup name = some logger ∧ appender ∈ logger.appenders ∧
          config.appenders.lookup appender = some entry ∧ entry.type = .FILE ∧
          sink = .single (.extRotateFileSink appender entry.file) := by
  obtain ⟨results, made, registered, -⟩ := start_ok started
  obtain ⟨rounds, empty⟩ := exists_finished_start ((service.registry.entries.map Sigma.snd).flatMap Logger.sinks)
  obtain ⟨finished, once, iff⟩ := reopened_of_finished empty
  refine ⟨rounds, _, rfl, finished, once, fun sink => ?_⟩
  rw [iff]
  constructor
  · rintro ⟨kind, reachable⟩
    cases sink with
    | dist name sinks => cases kind
    | single sink =>
      obtain ⟨name, logger, found, appender, used, known⟩ := (reachable_start registered).mp reachable
      cases sink with
      | extRotateFileSink owner file =>
        obtain ⟨entry, here, type, rfl, rfl⟩ := (lookup_file made).mp known
        exact ⟨name, logger, owner, entry, found, used, here, type, rfl⟩
      | _ => cases kind
  · rintro ⟨name, logger, appender, entry, found, used, here, type, rfl⟩
    have known := (lookup_file made).mpr ⟨entry, here, type, rfl, rfl⟩
    exact ⟨rfl, (reachable_start registered).mpr ⟨name, logger, found, appender, used, known⟩⟩

theorem start_reopens_coloured : ∃ service rounds final, start (fun _ => true) colouredConfig ∅ = .ok service ∧
    final = (reopenRound StartSink.sink fun _ => true)^[rounds] (collectSinks (service.registry.entries.map Sigma.snd)) ∧
      StartSink.single (.extRotateFileSink (ascii "log") (ascii "a.log")) ∈ final.reopened := by
  obtain ⟨service, started⟩ : ∃ service, start (fun _ => true) colouredConfig ∅ = .ok service := ⟨_, rfl⟩
  obtain ⟨rounds, final, same, -, -, iff⟩ := start_reopens started
  refine ⟨service, rounds, final, started, same, (iff _).mpr ?_⟩
  exact ⟨ascii "network", _, ascii "log", _, rfl, by decide, rfl, rfl, rfl⟩

end Files

end Afina.Logging
