import Gomibako.Basic

/-!
# Error codes

Error codes as asio hands them to the handlers, and the errors of the HTTP algorithms.
-/

namespace Gomibako.Beast

/-- `error_code`; a value of zero is success in every category. -/
structure ErrorCode where
  category : Str := "system".toList
  value : Int := 0
deriving DecidableEq, Repr

namespace ErrorCode

/-- The conversion of an `error_code` to `bool`, by which the source asks whether an operation has
failed. -/
def failed (ec : ErrorCode) : Bool := ec.value != 0

/-- What `operator<<` prints of an `error_code`: the name of its category, a colon and its value. -/
def print (ec : ErrorCode) : Str := ec.category ++ ':' :: (toString ec.value).toList

/-- `asio::error::eof`, the error of a read from a connection that the peer has closed. -/
def eof : ErrorCode := ⟨"asio.misc".toList, 2⟩

end ErrorCode

/-- `http::error`, with the enumerators in the order of the source. Reference: `error`
(`error.hpp:21`). -/
inductive HttpError where
  | endOfStream | partialMessage | needMore | unexpectedBody | needBuffer | endOfChunk
  | bufferOverflow | headerLimit | bodyLimit | badAlloc
  | badLineEnding | badMethod | badTarget | badVersion | badStatus | badReason | badField | badValue
  | badContentLength | badTransferEncoding | badChunk | badChunkExtension | badObsFold
deriving DecidableEq, Repr

namespace HttpError

/-- The value of the enumerator; the source starts with one, since zero would be success. -/
def value : HttpError → Nat
  | endOfStream => 1
  | partialMessage => 2
  | needMore => 3
  | unexpectedBody => 4
  | needBuffer => 5
  | endOfChunk => 6
  | bufferOverflow => 7
  | headerLimit => 8
  | bodyLimit => 9
  | badAlloc => 10
  | badLineEnding => 11
  | badMethod => 12
  | badTarget => 13
  | badVersion => 14
  | badStatus => 15
  | badReason => 16
  | badField => 17
  | badValue => 18
  | badContentLength => 19
  | badTransferEncoding => 20
  | badChunk => 21
  | badChunkExtension => 22
  | badObsFold => 23

/-- `make_error_code`: the value of the enumerator in the category of the library. Reference:
`make_error_code` (`error.ipp:109`). -/
def toErrorCode (e : HttpError) : ErrorCode := ⟨"beast.http".toList, e.value⟩

/-- Every error of the library is a failure, as none of the enumerators has the value zero. -/
theorem failed_toErrorCode (e : HttpError) : e.toErrorCode.failed = true := by
  cases e <;> rfl

end HttpError

end Gomibako.Beast
