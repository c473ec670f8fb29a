import PacketTrust.CommandLine
import Std.Time.DateTime.Timestamp

/-! The command as a program: it collects what a run depends on, then prints and returns what the
run says. -/

namespace PacketTrust.CommandLine

/-- What stands at a place of this machine. What cannot be read is missing. -/
def readNode (text : String) : IO Node := do
  if text.isEmpty then return .missing
  let place := (← IO.currentDir) / text
  if ← place.isDir then
    let .ok entries ← place.readDir.toBaseIO | return .missing
    let contents ← entries.toList.mapM fun entry => do
      if ← entry.path.isDir then return none
      let .ok content ← (IO.FS.readBinFile entry.path).toBaseIO | return none
      return some (entry.fileName, content.toList)
    return .directory (contents.filterMap id)
  else
    let .ok content ← (IO.FS.readBinFile place).toBaseIO | return .missing
    return .file content.toList

/-- The setting that this process stands in. -/
def currentSetting (arguments : List String) : IO Setting := do
  let values ← variableNames.mapM fun name => return (name, ← IO.getEnv name)
  let environment name := (values.lookup name).join
  let now := Instant.ofMillis (← Std.Time.Timestamp.now).toMillisecondsSinceUnixEpoch.val
  let bare : Setting := { arguments, environment, look := fun _ => .missing, clock := .running now }
  let nodes ← bare.places.mapM fun text => return (text, ← readNode text)
  return { bare with look := fun text => (nodes.lookup text).getD .missing }

end PacketTrust.CommandLine

def main (arguments : List String) : IO UInt32 := do
  let result := PacketTrust.CommandLine.run (← PacketTrust.CommandLine.currentSetting arguments)
  IO.print result.output
  return result.code.toUInt32
