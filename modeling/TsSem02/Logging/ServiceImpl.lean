import TsSem02.Library.CInt
import TsSem02.Storage.Storage

/-! # The logging service

`ServiceImpl::select` looks a logger up under shorter and shorter names,
`ServiceImpl::create` makes a logger whose pattern has the variables of a map put
in, and `ServiceImpl::reopen_all` opens the files of all loggers anew.

The registry of spdlog is a function from names to loggers for the first two, and
the list of its loggers for the third.
-/

namespace Afina.Logging

open CInt

/-- A `std::string`, whose length is a `size_t`. -/
structure StdString where
  bytes : Bytes
  sized : bytes.length < 2 ^ 64

/-- `spdlog::level::level_enum` -/
inductive Level where
  | trace
  | debug
  | info
  | warn
  | err
  | critical
  | off
deriving DecidableEq, Repr

/-- `spdlog::logger`, as far as the service works with it.  A pointer to a sink may
    be null. -/
structure Logger (Ptr : Type) where
  name : Bytes
  sinks : List (Option Ptr)
  level : Level
  pattern : Bytes
  flushLevel : Level
deriving DecidableEq, Repr

inductive LoggingFault where
  | nullPointer   -- the logger is null
  | pastTheEnd    -- an iterator at the end is dereferenced or advanced
deriving DecidableEq, Repr

/-! ## `select` -/

def npos : Nat := toUnsigned 64 (-1)

def dot : UInt8 := 46

/-- `find_last_of` with a single character. -/
def findLastOf (name : Bytes) (c : UInt8) : Nat :=
  if c ∈ name then name.length - 1 - name.reverse.idxOf c else npos

theorem findLastOf_lt {name : Bytes} {c : UInt8} (member : c ∈ name) : findLastOf name c < name.length := by
  have positive := List.length_pos_of_mem member
  rw [findLastOf, if_pos member]
  omega

/-- `tmp_name.substr(0, idx)`, with `idx` set to 0 when there is no dot. -/
def truncate (name : Bytes) : Bytes :=
  let idx := findLastOf name dot
  -- `-1` is converted to `size_t`
  name.take (if idx = toUnsigned 64 (-1) then 0 else idx)

theorem truncate_lt {name : Bytes} (nonempty : truncate name ≠ []) : (truncate name).length < name.length := by
  by_cases dotted : dot ∈ name
  · have last := findLastOf_lt dotted
    have cut : (truncate name).length ≤ findLastOf name dot := by
      rw [truncate, List.length_take]
      split <;> omega
    omega
  · rw [truncate, findLastOf, if_neg dotted] at nonempty
    exact absurd rfl nonempty

/-- `ServiceImpl::select`; what `spdlog::get` finds, and `_root`, may be null. -/
def select {Pointee : Type} (get : Bytes → Option Pointee) (root : Option Pointee) (name : Bytes) :
    Option Pointee :=
  match get name with
  | some result => some result
  | none => if truncate name = [] then root else select get root (truncate name)
termination_by name.length
decreasing_by exact truncate_lt (by assumption)

/-! ## `create` -/

def percent : UInt8 := 37
def bigX : UInt8 := 88
def openBrace : UInt8 := 123
def closeBrace : UInt8 := 125

/-- The text in front of the first closing brace, and what is behind the brace. -/
def splitAtBrace : Bytes → Option (Bytes × Bytes)
  | [] => none
  | c :: input =>
    if c = closeBrace then some ([], input)
    else (splitAtBrace input).map fun (key, behind) => (c :: key, behind)

/-- One round of the scan of a pattern, from `it` to the `it++` of the loop: what is
    written, and where the iterator is then.  An iterator is what lies between it
    and the end. -/
def scanRound (mdc : Bytes → Option Bytes) : Bytes → Except LoggingFault (Bytes × Bytes)
  | [] => .error .pastTheEnd
  | c :: it =>
    if c ≠ percent then .ok ([c], it)
    else
      -- `if (++it != end && *it != 'X')`
      match it with
      | d :: it =>
        if d ≠ bigX then .ok ([percent, d], it)
        else
          -- `if (++it != end && *it != '{')`
          match it with
          | e :: it =>
            if e ≠ openBrace then .ok ([percent, bigX, e], it)
            else
              -- the search starts at the opening brace
              match splitAtBrace it with
              | none => .ok ([percent, bigX, openBrace, e], it)
              | some (key, behind) =>
                match mdc key with
                | none => .ok ([percent, bigX, openBrace, e], it)
                -- `ss << pos->first`
                | some _ => .ok (key, behind)
          | [] => .error .pastTheEnd  -- nothing is found, and `*it` is read
      | [] => .error .pastTheEnd  -- the second `++it`

theorem splitAtBrace_some {input key behind : Bytes} (found : splitAtBrace input = some (key, behind)) :
    closeBrace ∉ key ∧ input = key ++ closeBrace :: behind := by
  induction input generalizing key with
  | nil => cases found
  | cons c input ih =>
    rw [splitAtBrace] at found
    split at found
    · next closes =>
      cases found
      exact ⟨List.not_mem_nil, by rw [closes]; rfl⟩
    · next other =>
      obtain ⟨⟨tail, _⟩, later, same⟩ := Option.map_eq_some_iff.mp found
      cases same
      obtain ⟨absent, rfl⟩ := ih later
      refine ⟨?_, rfl⟩
      rintro (_ | ⟨_, member⟩)
      · exact other rfl
      · exact absent member

theorem scanRound_lt {mdc : Bytes → Option Bytes} {it written next : Bytes}
    (round : scanRound mdc it = .ok (written, next)) : next.length < it.length := by
  unfold scanRound at round
  split at round
  · cases round
  · split at round
    · cases round
      exact Nat.lt_succ_self _
    · split at round
      · split at round
        · cases round
          simp only [List.length_cons]
          omega
        · split at round
          · split at round
            · cases round
              simp only [List.length_cons]
              omega
            · split at round
              · cases round
                simp only [List.length_cons]
                omega
              · next found =>
                obtain ⟨-, rfl⟩ := splitAtBrace_some found
                split at round <;>
                · cases round
                  simp only [List.length_append, List.length_cons]
                  omega
          · cases round
      · cases round

/-- The loop over a pattern, and what it writes to `ss`. -/
def scan (mdc : Bytes → Option Bytes) (it : Bytes) : Except LoggingFault Bytes :=
  match it with
  | [] => .ok []
  | c :: it =>
    match _round : scanRound mdc (c :: it) with
    | .error fault => .error fault
    | .ok (written, next) => (scan mdc next).map (written ++ ·)
termination_by it.length
decreasing_by exact scanRound_lt _round

def create {Ptr : Type} (get : Bytes → Option (Logger Ptr)) (root : Option (Logger Ptr)) (name : Bytes)
    (mdc : Bytes → Option Bytes) : Except LoggingFault (Logger Ptr) :=
  match select get root name with
  | none => .error .nullPointer
  | some base =>
    (scan mdc base.pattern).map fun pattern =>
      { name := base.name
        sinks := base.sinks
        level := base.level
        pattern := pattern
        flushLevel := .err }

/-! ## `reopen_all` -/

/-- `std::mutex` and `spdlog::details::null_mutex`, the two a sink is made for. -/
inductive Mutex where
  | mt
  | st
deriving DecidableEq, Repr

/-- A sink, as `dynamic_cast` tells it from others. -/
inductive Sink (Ptr : Type) where
  | distSink (mutex : Mutex) (sinks : List (Option Ptr))
  | spdlogDistSink (sinks : List (Option Ptr))  -- `spdlog::sinks::dist_sink` itself
  | extRotateFileSink (mutex : Mutex)
  | other
deriving DecidableEq, Repr

/-- The variables of the loop, and the calls of `reopen` it has made. -/
structure Reopening (Ptr : Type) where
  sinks : List (Option Ptr)
  seen : List (Option Ptr)
  reopened : List Ptr
  threw : Bool
deriving DecidableEq, Repr

/-- The queue the loop starts with. -/
def collectSinks {Ptr : Type} (loggers : List (Logger Ptr)) : Reopening Ptr where
  sinks := loggers.flatMap Logger.sinks
  seen := []
  reopened := []
  threw := false

/-- One round of the loop.  `reopen` throws when the file cannot be opened, and
    then there are no more rounds. -/
def reopenRound {Ptr : Type} [DecidableEq Ptr] (graph : Ptr → Sink Ptr) (opens : Ptr → Bool)
    (s : Reopening Ptr) : Reopening Ptr :=
  if s.threw then s
  else
    match s.sinks with
    | [] => s
    | psink :: sinks =>
      if psink ∈ s.seen then { s with sinks := sinks }
      else
        let s := { s with sinks := sinks, seen := s.seen ++ [psink] }
        match psink with
        | none => s
        | some file =>
          match graph file with
          | .distSink .st more => { s with sinks := sinks ++ more }
          | .extRotateFileSink .mt => { s with reopened := s.reopened ++ [file], threw := !opens file }
          | _ => s

/-- The loop is left. -/
def Reopening.Finished {Ptr : Type} (s : Reopening Ptr) : Prop := s.sinks = [] ∨ s.threw = true

end Afina.Logging
