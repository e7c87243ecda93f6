import Qdocdb.Server

/-!
# The client's side of a request

`QDocdbClient` has a method for each request: it fills in a link object, sends it and waits
for the reply. `QDocdbConnector` is what an application uses; its methods call those of the
client, with defaults for some parameters. The parameters of the client are positional and
a number converts to a `bool`, so what ends up in which field is decided by their order.
-/

namespace Qdocdb

namespace QDocdbClient

/-- `QDocdbClient::resultEnum` -/
inductive ResultEnum where
  | success
  | errorConnection
  | error
  deriving DecidableEq

/-- What `sendAndWaitReply` returns; there is no reply when the waiting timed out. -/
def sendAndWaitReply : Option Reply → ResultEnum
  | none => .errorConnection
  | some reply => if reply.error ≠ [] then .error else .success

/-- A reply counts as success exactly when its error is empty. -/
theorem sendAndWaitReply_eq_success_iff {reply : Reply} :
    sendAndWaitReply (some reply) = .success ↔ reply.error = [] := by
  rw [sendAndWaitReply]
  split
  · rename_i h
    simp [h]
  · rename_i h
    simpa using h

/-- `QDocdbClient::insert` -/
def insert (doc : QJsonObject) (gen : Transaction.IdGen) (overwrite ignoreReadOnlyValue : Bool)
    (transactionId : ℤ) : LinkObjectType :=
  .insert transactionId doc gen overwrite ignoreReadOnlyValue

/-- `QDocdbClient::remove` -/
def remove (query : QJsonObject) (transactionId : ℤ) : LinkObjectType :=
  .remove transactionId query

/-- `QDocdbClient::removeId` -/
def removeId (docId : QByteArray) (ignoreReadOnlyValue : Bool) (transactionId : ℤ) :
    LinkObjectType :=
  .removeId transactionId docId ignoreReadOnlyValue

end QDocdbClient

/-- The conversion of an `int` argument to a `bool` parameter. -/
def boolOfInt (n : ℤ) : Bool := n ≠ 0

namespace QDocdbConnector

/-- `QDocdbConnector::insert`. The transaction number is the fifth argument of the client's
`insert`, which is `ignoreReadOnlyValue`; the parameter `transactionId` behind it keeps its
default. -/
def insert (doc : QJsonObject) (gen : Transaction.IdGen) (transactionId : ℤ) : LinkObjectType :=
  QDocdbClient.insert doc gen false (boolOfInt transactionId) (-1)

/-- `QDocdbConnector::remove` -/
def remove (query : QJsonObject) (transactionId : ℤ) : LinkObjectType :=
  QDocdbClient.remove query transactionId

/-- `QDocdbConnector::removeId` -/
def removeId (docId : QString) (transactionId : ℤ) : LinkObjectType :=
  QDocdbClient.removeId (toLocal8Bit docId) false transactionId

end QDocdbConnector

end Qdocdb
