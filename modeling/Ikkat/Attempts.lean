import Ikkat.LocalFiles

set_option autoImplicit false

namespace Ikkat

variable {Reply : Type}

inductive Attempt where
  | create (req : CreateRequest) (answer : Except Failure OpenResponse)
  | openFile (req : FileRequest) (answer : Except Failure OpenResponse)
  | close (req : DataRequest) (answer : Except Failure CloseResponse)
  | write (req : DataRequest) (answer : Except Failure WriteResponse)
  | delete (req : DeleteRequest) (answer : Except Failure DeleteResponse)
  | testAuth (filename : String) (answer : Except Failure Int32)
  | read (req : ReadRequest) (answer : Except Failure (List Bytes × Option Failure))

def Attempt.version : Attempt → Option Int32
  | .close _ (.ok resp) => some resp.version
  | .write _ (.ok resp) => some resp.version
  | _ => none

def Attempt.succeeded : Attempt → Bool
  | .create _ answer => answer.isOk
  | .openFile _ answer => answer.isOk
  | .close _ answer => answer.isOk
  | .write _ answer => answer.isOk
  | .delete _ answer => answer.isOk
  | .testAuth _ answer => answer.isOk
  | .read _ answer => answer.isOk

section Recorded

variable {World : Type}

def noted {Reply : Type} (note : Except Failure Reply → Attempt) (send : String → World → World × Except Failure Reply)
    (address : String) (world : World × List Attempt) : (World × List Attempt) × Except Failure Reply :=
  let done := send address world.1
  ((done.1, world.2 ++ [note done.2]), done.2)

-- The same servers, with every request noted beside them in the order of sending, together with its answer.
def Net.recorded (net : Net World) : Net (World × List Attempt) where
  create address world req := noted (.create req) (fun address world => net.create address world req) address world
  openFile address world req := noted (.openFile req) (fun address world => net.openFile address world req) address world
  close address world req := noted (.close req) (fun address world => net.close address world req) address world
  write address world req := noted (.write req) (fun address world => net.write address world req) address world
  delete address world req := noted (.delete req) (fun address world => net.delete address world req) address world
  testAuth address world filename :=
    noted (.testAuth filename) (fun address world => net.testAuth address world filename) address world
  read address world req := noted (.read req) (fun address world => net.read address world req) address world
  connect world address :=
    let done := net.connect world.1 address
    ((done.1, world.2), done.2)

def Seat.recording (seat : Seat World) : Seat (World × List Attempt) := ⟨seat.client, seat.disk, (seat.world, [])⟩

section Cases

variable (net : Net World) (io : LocalIO) (clientID : String) (seat : Seat World) (call : ClientCall)

variable (requestId name : String)

end Cases

end Recorded

end Ikkat
