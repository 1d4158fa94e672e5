import LdapBer.Dump.File
import LdapBer.Options

/-! The dump program.

It reports on the files named on its command line, one after the other. The report goes to
the output and the trace to the error output. The status is 0 if every file was decoded to
its end and every message was encoded as it was read. -/
namespace LdapBer.Dump

def usage : Bytes :=
  ascii "Usage: lddump [-c chunk] [-m max-pdu] [-v] [--hex] files...\n" ++
    ascii "   -c chunk    read the files in chunks of this size (default 4k)\n" ++
    ascii "   -m max-pdu  reject PDUs larger than this\n" ++
    ascii "   -v          trace the grammar transitions to stderr\n" ++
    ascii "   --hex       show the encoding of each message\n"

/-- The letters `c` and `m` with values and the flag `v`. -/
def optionSpec : Bytes :=
  ascii "c:m:v"

/-- What a command line asks for. -/
inductive Request where
  | usage
  | dump (settings : Settings) (files : List Bytes)
deriving DecidableEq, Repr

def sizeOf (option : String) (value : Option Bytes) : Except Failure Nat :=
  (Options.readSize (ascii option) (value.getD [])).mapError fun e => .reason e.message

/-- Follows the options from left to right. A limit of 0 is none. -/
def follow (settings : Settings) : List Options.Step → Except Failure Request
  | .found letter value _ :: steps =>
    if letter = 99 then
      match sizeOf "-c" value with
      | .error f => .error f
      | .ok n =>
        if n = 0 then .error (.reason (ascii "the chunk size must not be 0"))
        else follow {settings with chunk := n} steps
    else if letter = 109 then
      match sizeOf "-m" value with
      | .error f => .error f
      | .ok n => follow {settings with limit := if n = 0 then none else some n} steps
    else if letter = 118 then follow {settings with trace := true} steps
    else .ok .usage
  | .finished args :: _ => .ok (if args.isEmpty then .usage else .dump settings args)
  | _ => .ok .usage

def request (args : List Bytes) : Except Failure Request :=
  let (hex, args) := Options.takeWord (ascii "--hex") args
  follow {hex := hex} (Options.steps optionSpec args)

/-- What a run of the program leaves. -/
structure Report where
  status : Int
  out : Bytes
  err : Bytes
deriving DecidableEq, Repr

def dumpFiles (settings : Settings) (sources : Bytes → Source) (files : List Bytes) : Report :=
  let reports := files.map fun name => dumpFile settings name (sources name)
  { status := if reports.all FileReport.isClean then 0 else 1
    out := reports.flatMap FileReport.out
    err := reports.flatMap FileReport.trace }

/-- Runs the program on its arguments, which do not include its name. -/
def run (args : List Bytes) (sources : Bytes → Source) : Report :=
  match request args with
  | .error f =>
    let (status, err) := conclude (.error f)
    ⟨status, [], err⟩
  | .ok .usage => ⟨1, [], usage⟩
  | .ok (.dump settings files) => dumpFiles settings sources files

end LdapBer.Dump
