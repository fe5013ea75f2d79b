import LineShell.Application.Program
/-!
# Echo, date and probes

Applications that report something of their own. Echo writes its arguments on one line, with a space
between any two. Date writes the local date and time on one line and takes no arguments. A probe is
for observing the shell: it reads its input to the end and writes its name and arguments, and it can
be made to fail after the first part of its output.
-/

namespace LineShell

namespace Application

def echoLine (args : List Text) : Text :=
  List.intercalate [' '] args ++ ['\n']

def echo : Application := fun call =>
  .needsOutput call (.writeText (echoLine call.args) .exit)

def date : Application := fun call =>
  if call.args = [] then
    .needsOutput call (.time fun moment => .writeText (moment.render ++ ['\n']) .exit)
  else .fail .noArguments

/-- Write a name and arguments, or fail after the name. -/
def report (name : Text) (fails : Bool) (call : Invocation) : Program :=
  .needsOutput call <|
    .writeText (name ++ ['(']) <|
      if fails then .fail (.other "probe failed".toList)
      else .writeText (List.intercalate [','] call.args ++ [')', '\n']) .exit

/-- Read the input to the end and report the call. -/
def probe (name : Text) (fails : Bool) : Application := fun call =>
  if call.hasInput then
    .read none fun
      | .ok _ => report name fails call
      | .error cause => .fail (.input cause)
  else report name fails call

end Application

end LineShell
