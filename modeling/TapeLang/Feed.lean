import TapeLang.Fault

/-!
# Feeds

A feed answers the requests for input bytes one after another. It is the
sequence of its replies together with the number of requests so far, so what
it will answer is fixed before the run.
-/

namespace TapeLang

/-- The answer to one request. Whoever serves it may ask the machine to stop while doing so. -/
inductive Reply where
  | byte (value : UInt8) (requestsStop : Bool)
  /-- No byte. -/
  | unavailable (failure : InputFailure) (requestsStop : Bool := false)
  deriving DecidableEq, Inhabited

/-- What reading one byte of a stream gives. -/
inductive Reading where
  | byte (value : UInt8)
  | endOfStream
  /-- Any other failure, with the reader's report. -/
  | failed (report : String)
  deriving DecidableEq, Inhabited

/-- The bytes of a stream, then its end for ever. -/
def Reading.ofBytes (bytes : Array UInt8) (n : Nat) : Reading :=
  match bytes[n]? with
  | some value => .byte value
  | none => .endOfStream

/-- The reply to a request served from a stream: behind the end it is a zero. -/
def Reply.ofReading : Reading → Reply
  | .byte value => .byte value false
  | .endOfStream => .byte 0 false
  | .failed report => .unavailable (.unreadable report)

/-- A sequence of replies and how many of them have been given. -/
structure Feed where
  /-- The reply to each request, counted from zero. -/
  reply : Nat → Reply
  /-- The number of requests so far, those without a byte included. -/
  calls : Nat := 0

namespace Feed

/-- The reply to the next request, and the feed behind it. -/
def next (f : Feed) : Reply × Feed := (f.reply f.calls, { f with calls := f.calls + 1 })

/-- The given replies, then a closed feed. -/
def ofReplies (replies : Array Reply) : Feed where
  reply n := replies.getD n (.unavailable .closed)

/-- The given bytes, then a closed feed. -/
def ofBytes (bytes : List UInt8) : Feed :=
  ofReplies (bytes.map (Reply.byte · false)).toArray

/-- A feed that reads a byte of a stream for each request. -/
def ofReader (read : Nat → Reading) : Feed where
  reply n := .ofReading (read n)

/-- A feed that reads from a stream of the given bytes. -/
def ofStream (bytes : Array UInt8) : Feed := ofReader (.ofBytes bytes)

end Feed

end TapeLang
