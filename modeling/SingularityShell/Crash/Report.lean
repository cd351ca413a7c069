import SingularityShell.Lib.Ascii
import SingularityShell.Lib.Path

/-!
# Crash reports

The part of `core/crash/crash_report.vala` that names a crash: where a report comes from, and the
key by which the reporter tells one crash from another.

## Main definitions

* `Crash.Report`
* `Crash.Report.key` — the process id and the base name of the executable

## Main results

* `Crash.Report.pid_of_key` — reports with one key have one process id
-/

namespace SingularityShell

namespace Crash

open Ascii

/-- `SourceKind`. -/
inductive SourceKind
  | handler
  | coredumpctl
  | launcher
  deriving DecidableEq, Repr

/-- `Report`, with the properties that are read here. -/
structure Report where
  source : SourceKind := .launcher
  pid : ℤ := 0
  executable : Text := []
  appId : Text := []
  deriving DecidableEq, Repr

namespace Report

/-- `key`. -/
def key (r : Report) : Text := signed r.pid ++ ofString ":" ++ Path.basename r.executable

theorem pid_of_key {r q : Report} (h : r.key = q.key) : r.pid = q.pid := by
  have hsep : signed r.pid ++ 58 :: Path.basename r.executable =
      signed q.pid ++ 58 :: Path.basename q.executable := by
    simpa [key, ofString] using h
  exact (signed_append_inj (by decide) (by decide) hsep).1

end Report

end Crash

end SingularityShell
