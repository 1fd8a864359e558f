import Letopis.Domain.Event
import Letopis.Tenant.Principal

/-!
# Webhook deliveries

A delivery goes through the queue as a task. One that could not be delivered is parked as a dead
letter, and can be put back on the queue from there. The delivery id stays the same throughout.
-/

namespace Letopis

/-- A delivery on the queue. -/
structure DeliveryTask where
  tenant : Tenant
  /-- The delivery, the same for all attempts. -/
  deliveryID : String
  /-- The rule that has produced the delivery. -/
  ruleID : String := ""
  ruleName : String := ""
  collection : String := ""
  url : String := ""
  secretRef : String := ""
  timeoutMS : Int := 0
  /-- How many attempts are made, zero for the default. -/
  maxAttempts : Int := 0
  attempt : Int := 0
  body : String := ""
  deriving DecidableEq

/-- A delivery that is parked. -/
structure DeadLetter where
  id : String
  /-- The rule that has produced the delivery. -/
  ruleID : String
  collection : String
  deliveryID : String := ""
  url : String := ""
  secretRef : String := ""
  body : String := ""
  attempts : Int := 0
  lastError : String := ""
  failedAt : Time := .zero
  deriving DecidableEq

/-- The task that puts a dead letter back on the queue. Its attempts are counted from the start. -/
def DeadLetter.requeued (dl : DeadLetter) (t : Tenant) : DeliveryTask where
  tenant := t
  deliveryID := dl.deliveryID
  ruleID := dl.ruleID
  collection := dl.collection
  url := dl.url
  secretRef := dl.secretRef
  attempt := 0
  body := dl.body

end Letopis
