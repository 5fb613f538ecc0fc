import Peephole.Json.Fields
import Peephole.Json.Layout
import Peephole.Json.Reader
import Peephole.Optimizer.Report
import Peephole.Optimizer.Settings

/-!
# Settings and reports in JSON

Every field of the settings may be left out, and then has its default.  Reports are
only written.
-/

namespace Peephole

namespace Settings

def fieldNames : List String :=
  ["stack", "arithmetic", "slots", "jumps", "max_rewrites", "verify_each_step"]

def toJson (settings : Settings) : Json :=
  .record [("stack", .bool settings.stack), ("arithmetic", .bool settings.arithmetic),
    ("slots", .bool settings.slots), ("jumps", .bool settings.jumps),
    ("max_rewrites",
      match settings.maxRewrites with
      | some limit => .integer limit
      | none => .null),
    ("verify_each_step", .bool settings.auditEachStep)]

def ofJson? (value : Json) : Option Settings :=
  let fallback : Settings := {}
  match value.fields? fieldNames with
  | some [stack?, arithmetic?, slots?, jumps?, maxRewrites?, auditEachStep?] => do
      return {
        stack := ← Json.orElse? fallback.stack Json.bool? stack?
        arithmetic := ← Json.orElse? fallback.arithmetic Json.bool? arithmetic?
        slots := ← Json.orElse? fallback.slots Json.bool? slots?
        jumps := ← Json.orElse? fallback.jumps Json.bool? jumps?
        maxRewrites := ←
          Json.orElse? fallback.maxRewrites (Json.nullable? (Json.natural? UInt64.size))
            maxRewrites?
        auditEachStep := ← Json.orElse? fallback.auditEachStep Json.bool? auditEachStep?
      }
  | _ => none

/-- Reads the document of some settings. -/
def ofText? (text : String) : Option Settings :=
  (Json.parse? text).bind ofJson?

end Settings

namespace Report

def toJson (report : Report) : Json :=
  .record [("passes", .integer report.passes), ("rewrites", .integer report.rewrites),
    ("rule_hits",
      .record (report.hitList.map fun hit => (hit.1.name, .integer hit.2))),
    ("instructions_before", .integer report.before),
    ("instructions_after", .integer report.after)]

end Report

end Peephole
