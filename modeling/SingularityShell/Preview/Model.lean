import Mathlib.Data.Nat.Notation
import SingularityShell.Lib.Transition

/-!
# Window previews

The pixels of a window are captured into a buffer, which is one of a pool as long as the pool lasts.
A request belongs to the events of its frame, and to the holder of the token when it can be
cancelled.

## Main definitions

* `Preview.State` — the pool and the requests
* `Preview.frameBuffer`, `Preview.frameReady`, `Preview.frameFailed` — the events of a frame
* `Preview.cancelCapture` — the request is cancelled, or its token is given back
* `Preview.step` — one event from the compositor or the rest of the shell
-/

namespace SingularityShell

namespace Preview

/-- `PREVIEW_POOL_MAX` -/
def previewPoolMax : ℕ := 24

structure Geometry where
  format : UInt32 := 0
  width : UInt32 := 0
  height : UInt32 := 0
  stride : UInt32 := 0
  deriving DecidableEq

/-- `PreviewBuffer`. A `wl_buffer` is known by its number. -/
structure PreviewBuffer where
  buffer : Option ℕ := none
  geometry : Geometry := {}
  inUse : Bool := false
  deriving DecidableEq

/-- A call of one of the two functions of a request. -/
inductive Call where
  | callback (width height stride : UInt32) (data : Bool)
  | destroy
  deriving DecidableEq

/-- How a request ended: it was refused, a terminal event came, the handler of the buffer event gave
up, or it was cancelled. -/
inductive End where
  | refused
  | terminal
  | gaveUp
  | cancelled
  deriving DecidableEq

/-- `PreviewRequest`, with what became of it. -/
structure PreviewRequest where
  /-- Whether `frame` is set. -/
  frame : Bool := false
  buffer : Option ℕ := none
  /-- `pb`: the slot of the pool. -/
  pb : Option ℕ := none
  /-- Whether `data` is mapped. -/
  data : Bool := false
  geometry : Geometry := {}
  /-- Whether `destroy` is set. -/
  destroy : Bool := true
  cancelled : Bool := false
  external : Bool
  done : Bool := false
  /-- Whether the frame object exists, and its events arrive. -/
  frameExists : Bool := false
  /-- Whether there is memory of the request, or was. -/
  allocated : Bool := false
  frees : ℕ := 0
  /-- Whether the token was given back. -/
  released : Bool := false
  calls : List Call := []
  ended : Option End := none
  deriving DecidableEq

structure State where
  pool : List PreviewBuffer := List.replicate previewPoolMax {}
  /-- The requests, which are known by their numbers. -/
  requests : List PreviewRequest := []
  buffers : ℕ := 0
  /-- Whether freed memory or a null pointer was used. -/
  broken : Bool := false
  deriving DecidableEq

/-! ### The pool -/

/-- `preview_buffer_acquire`. The calls that make a buffer for a slot succeed, or one of them fails.
-/
def previewBufferAcquire (g : Geometry) (alloc : Bool) (s : State) : Option ℕ × State :=
  match s.pool.findIdx? fun pb => !pb.inUse && pb.buffer.isSome && decide (pb.geometry = g) with
  | some i => (some i, { s with pool := s.pool.modify i ({ · with inUse := true }) })
  | none =>
    match s.pool.findIdx? fun pb => !pb.inUse with
    | none => (none, s)
    | some i =>
      if alloc then
        (some i, { s with
          pool := s.pool.set i ⟨some s.buffers, g, true⟩, buffers := s.buffers + 1 })
      else (none, { s with pool := s.pool.modify i ({ · with buffer := none }) })

/-- `preview_buffer_release` -/
def previewBufferRelease (i : ℕ) (s : State) : State :=
  { s with pool := s.pool.modify i ({ · with inUse := false }) }

/-- The body of the loop of `singularity_wayland_preview_pool_trim`. -/
def trimmed (pb : PreviewBuffer) : PreviewBuffer :=
  if pb.inUse ∨ pb.buffer = none then pb else { pb with buffer := none, geometry := {} }

/-- `singularity_wayland_preview_pool_trim` -/
def previewPoolTrim (s : State) : State := { s with pool := s.pool.map trimmed }

/-! ### Requests -/

def put (id : ℕ) (r : PreviewRequest) (s : State) : State :=
  { s with requests := s.requests.set id r }

/-- `req->callback` -/
def PreviewRequest.call (width height stride : UInt32) (data : Bool) (r : PreviewRequest) :
    PreviewRequest :=
  { r with calls := r.calls ++ [.callback width height stride data] }

/-- `req->destroy`, which is called once. -/
def PreviewRequest.callDestroy (r : PreviewRequest) : PreviewRequest :=
  if r.destroy then { r with calls := r.calls ++ [.destroy], destroy := false } else r

/-- `free` -/
def PreviewRequest.free (r : PreviewRequest) : PreviewRequest := { r with frees := r.frees + 1 }

/-- `preview_request_free_buffer` -/
def previewRequestFreeBuffer (r : PreviewRequest) (s : State) : PreviewRequest × State :=
  match r.pb with
  | some i => ({ r with pb := none, buffer := none, data := false }, previewBufferRelease i s)
  | none => ({ r with buffer := none, data := false }, s)

/-- A capture is requested: `ready` when the manager, the shared memory and the window are there,
and `calloc` when there is memory for the request. -/
def capture (external ready frame calloc : Bool) (s : State) : State :=
  if ready && frame then
    if calloc then
      { s with requests := s.requests ++
          [{ frame := true, frameExists := true, allocated := true, external }] }
    else { s with broken := true }
  else
    let refused : PreviewRequest := { external, ended := some .refused }
    { s with requests := s.requests ++ [(refused.call 0 0 0 false).callDestroy] }

/-- The four exits of `frame_handle_buffer` on a failure. -/
def giveUp (id : ℕ) (r : PreviewRequest) (s : State) : State :=
  let r := (r.call 0 0 0 false).callDestroy
  put id { r.free with frameExists := false, ended := some .gaveUp } s

/-- `frame_handle_buffer`. The calls that make a buffer for a slot succeed or not, and so do those
for a buffer that is not of the pool. -/
def frameBuffer (id : ℕ) (g : Geometry) (slotAlloc ownAlloc : Bool) (r : PreviewRequest)
    (s : State) :
    State :=
  let r := { r with geometry := g }
  match previewBufferAcquire g slotAlloc s with
  | (some i, s) =>
    put id { r with pb := some i, buffer := (s.pool[i]?).bind (·.buffer), data := true } s
  | (none, s) =>
    if ownAlloc then
      { put id { r with buffer := some s.buffers, data := true } s with buffers := s.buffers + 1 }
    else giveUp id r s

/-- The end of `frame_handle_ready` and of `frame_handle_failed`. -/
def terminal (id : ℕ) (r : PreviewRequest) (s : State) : State :=
  let (r, s) := previewRequestFreeBuffer r s
  let r := { r with frameExists := false, frame := false, ended := some .terminal }.callDestroy
  put id (if r.external then { r with done := true } else r.free) s

/-- `frame_handle_ready` -/
def frameReady (id : ℕ) (r : PreviewRequest) (s : State) : State :=
  let g := r.geometry
  terminal id (if r.cancelled then r else r.call g.width g.height g.stride r.data) s

/-- `frame_handle_failed` -/
def frameFailed (id : ℕ) (r : PreviewRequest) (s : State) : State :=
  terminal id (if r.cancelled then r else r.call 0 0 0 false) s

/-- `singularity_wayland_cancel_capture`. -/
def cancelCapture (id : ℕ) (r : PreviewRequest) (s : State) : State :=
  let r := { r with released := true }
  if r.frees ≠ 0 then { put id r s with broken := true }
  else if r.done then put id r.free s
  else
    let r := { r with
      cancelled := true
      frameExists := r.frameExists && !r.frame
      frame := false
      ended := some .cancelled }
    let (r, s) := previewRequestFreeBuffer r s
    put id r.callDestroy.free s

/-! ### Events -/

inductive Event where
  | capture (external ready frame calloc : Bool)
  | buffer (id : ℕ) (g : Geometry) (slotAlloc ownAlloc : Bool)
  | ready (id : ℕ)
  | failed (id : ℕ)
  | cancel (id : ℕ)
  | trim

/-- The events of a frame arrive as long as its object exists. -/
def onFrame (id : ℕ) (handle : PreviewRequest → State → State) (s : State) : State :=
  match s.requests[id]? with
  | some r => if r.frameExists then handle r s else s
  | none => s

/-- A token is given back once. -/
def onToken (id : ℕ) (s : State) : State :=
  match s.requests[id]? with
  | some r => if r.external && r.allocated && !r.released then cancelCapture id r s else s
  | none => s

/-- Nothing is known of what happens after freed memory was used. -/
def step (s : State) (e : Event) : State :=
  if s.broken then s
  else
    match e with
    | .capture external ready frame calloc => capture external ready frame calloc s
    | .buffer id g slotAlloc ownAlloc => onFrame id (frameBuffer id g slotAlloc ownAlloc) s
    | .ready id => onFrame id (frameReady id) s
    | .failed id => onFrame id (frameFailed id) s
    | .cancel id => onToken id s
    | .trim => previewPoolTrim s

/-- The state after the events. -/
def run (events : List Event) : State := Transition.run step {} events

end Preview

end SingularityShell
