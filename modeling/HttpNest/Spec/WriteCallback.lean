import HttpNest.Spec.Channel

/-!
# What runs inside `writeCompleteCb_`

`Channel.step` takes a callback for the step behind the function that calls it. Here it runs
where it is called: a `Reply` is what one call of `writeCompleteCb_` does, with the kernel's
answers to its writes and with the replies to the calls of `writeCompleteCb_` that it causes
itself. A `CallbackRun` is a connection in its loop that notes `iovecList_` at every such call.
-/

namespace HttpNest

open Epoll

/-- The calls of `Send` that one call of `writeCompleteCb_` makes. `inner` is what the callback
does if the `Send` calls it, while this call is still running. -/
inductive Reply
  | done
  | send (buf size : BitVec 64) (answer : Answer) (inner after : Reply)
  | sendList (list : List Iovec) (after : Reply)

structure CallbackRun where
  channel : Channel
  calls : List (List Iovec) := []

/-- The events of a loop; `reply` is what the callback does if it is called. -/
inductive CallbackEvent
  | send (buf size : BitVec 64) (answer : Answer) (reply : Reply)
  | sendList (list : List Iovec)
  | onWrite (reply : Reply)
  | writev (answer : Answer) (reply : Reply)

namespace CallbackRun

/-- An effect of a function of the connection; `callback` is what `writeCompleteCb_` does. -/
def effect (callback : CallbackRun → CallbackRun) (s : CallbackRun) : Effect → CallbackRun
  | .writeComplete => callback { s with calls := s.calls ++ [s.channel.conn.iovecList] }
  | e => { s with channel := s.channel.apply e }

/-- A function of the connection, with its effects in order. -/
def perform (s : CallbackRun) (r : TcpConnection × List Effect)
    (callback : CallbackRun → CallbackRun) : CallbackRun :=
  r.2.foldl (effect callback) { s with channel := { s.channel with conn := r.1 } }

end CallbackRun

/-- The callback runs on the connection as it is when it is called. -/
def Reply.run : Reply → CallbackRun → CallbackRun
  | .done, s => s
  | .send buf size answer inner after, s =>
    after.run (s.perform (s.channel.conn.sendInLoop buf size answer) fun s => inner.run s)
  | .sendList list after, s => after.run (s.perform (s.channel.conn.sendListInLoop list) id)

namespace CallbackRun

/-- A connection that has been added to its loop. -/
def start (sock : Socket) : CallbackRun := { channel := .added sock }

/-- The handler is in the loop of `OnWrite`, or has returned. -/
def setWriting (s : CallbackRun) (writing : Bool) : CallbackRun :=
  { s with channel := { s.channel with phase := if writing then .writing else .idle } }

/-- An answer that is not an error, or a would-block. -/
def Benign (offered : ℕ) (answer : Answer) : Prop :=
  answer.Valid offered ∧ answer.isHard = false

instance (offered : ℕ) (answer : Answer) : Decidable (Benign offered answer) :=
  inferInstanceAs (Decidable (_ ∧ _))

/-- One event: a `Send` from outside, the begin of `OnWrite`, or a turn of its loop. The
callbacks have returned behind it. -/
def step (s : CallbackRun) : CallbackEvent → Option CallbackRun
  | .send buf size answer reply =>
    if s.channel.phase = .idle ∧ Benign size.toNat answer then
      some (s.perform (s.channel.conn.sendInLoop buf size answer) reply.run)
    else none
  | .sendList list =>
    if s.channel.phase = .idle then
      some (s.perform (s.channel.conn.sendListInLoop list) id)
    else none
  | .onWrite reply =>
    if s.channel.phase = .idle then
      let (conn, effects, again) := s.channel.conn.onWrite
      some ((s.perform (conn, effects) reply.run).setWriting again)
    else none
  | .writev answer reply =>
    if s.channel.phase = .writing ∧
        Benign (TcpConnection.iovecSize s.channel.conn.iovecList) answer then
      (s.channel.conn.onWriteTurn answer).map fun (conn, effects, again) =>
        (s.perform (conn, effects) reply.run).setWriting again
    else none

end CallbackRun

end HttpNest
