import LdapBer.Dump

/-! The command line of the dump program. -/
namespace LdapBer.Main

open Dump

def bytesOf (s : String) : Bytes :=
  s.toUTF8.data.toList

/-- The words for the errors of opening a file that are told apart. -/
def openError : IO.Error → String
  | .noFileOrDirectory .. => "No such file or directory"
  | .permissionDenied .. => "Permission denied"
  | e => toString e

/-- What reading a file at once meets. -/
def readSource (name : String) : IO Source := do
  match ← (IO.FS.Handle.mk name .read).toBaseIO with
  | .error e => return .closed (ascii (openError e))
  | .ok handle =>
    match ← handle.readBinToEnd.toBaseIO with
    | .error e => return .opened [] (some (bytesOf (toString e)))
    | .ok content => return .opened content.data.toList none

/-- Reads the files that are asked for; the same name is the same file. -/
def readSources (names : List String) : IO (List (Bytes × Source)) :=
  names.mapM fun name => return (bytesOf name, ← readSource name)

def run (args : List String) : IO UInt32 := do
  let names :=
    match request (args.map bytesOf) with
    | .ok (.dump _ files) => args.filter fun name => files.contains (bytesOf name)
    | _ => []
  let sources ← readSources names
  let report := Dump.run (args.map bytesOf) fun name =>
    (sources.lookup name).getD (.closed (ascii "No such file or directory"))
  let out ← IO.getStdout
  out.write ⟨report.out.toArray⟩
  let err ← IO.getStderr
  err.write ⟨report.err.toArray⟩
  return report.status.toNat.toUInt32

end LdapBer.Main

def main (args : List String) : IO UInt32 :=
  LdapBer.Main.run args
