import IosLearning.Base.Decimal
import IosLearning.Base.Machine

/-!
# ByteCoin

Each row that is picked asks the service for a ticker, in a session of its own. The completion
handler runs some time later, off the main thread; a ticker it can decode is handed to the main
queue, and put on the two labels when its turn comes. The responses arrive in any order, the
main queue runs what it is handed in that order.

The decoder is a parameter. The number of a task is not in the source: it tells apart the requests
and what becomes of them, and nothing is decided by it.
-/

namespace IosLearning

namespace ByteCoin

structure TickerUpdateModel where
  lastValue : String
  curencySymbol : String
  deriving DecidableEq

/-- What follows the first `str`, or all of `s`. -/
def getAfter (s : String) (str : Char) : String :=
  match s.toList.dropWhile (· ≠ str) with
  | [] => s
  | _ :: rest => String.ofList rest

structure TickerBtc where
  last : ℚ
  display_symbol : String
  deriving DecidableEq

def TickerBtc.tickerUpdateModel (t : TickerBtc) : TickerUpdateModel where
  lastValue := fixed 2 t.last
  curencySymbol := getAfter t.display_symbol '-'

example : (TickerBtc.mk (37155 / 4) "BTC-EUR").tickerUpdateModel = ⟨"9288.75", "EUR"⟩ := by
  decide +kernel

namespace CoinManager

def baseURL : String := "https://apiv2.bitcoinaverage.com/indices/global/ticker/BTC"

def currencyArray : List String :=
  ["AUD", "BRL", "CAD", "CNY", "EUR", "GBP", "HKD", "IDR", "ILS", "INR", "JPY", "MXN", "NOK",
    "NZD", "PLN", "RON", "RUB", "SEK", "SGD", "USD", "ZAR"]

/-- The address asked for; an index out of bounds traps. -/
def fetchRate (currencyIndex : ℕ) : Option String :=
  currencyArray[currencyIndex]?.map (baseURL ++ ·)

end CoinManager

/-- A data task that has not completed. -/
structure Request where
  task : ℕ
  urlString : String
  deriving DecidableEq

/-- A closure on the main queue. -/
structure LabelUpdate where
  task : ℕ
  tickerUpdateModel : TickerUpdateModel
  deriving DecidableEq

/-- The two labels, the task whose ticker they show, the number of tasks so far, those that have
not completed, and the main queue. -/
structure CoinTickerController where
  bitcoinLabel : String := "..."
  currencyLabel : String := "USD"
  shown : Option ℕ := none
  tasks : ℕ := 0
  inFlight : List Request := []
  mainQueue : List LabelUpdate := []
  deriving DecidableEq

namespace CoinTickerController

def performRequest (urlString : String) (c : CoinTickerController) : CoinTickerController :=
  { c with tasks := c.tasks + 1, inFlight := c.inFlight ++ [⟨c.tasks, urlString⟩] }

def didSelectRow (row : ℕ) (c : CoinTickerController) : Option CoinTickerController :=
  (CoinManager.fetchRate row).map (performRequest · c)

def didUpdateTicker (task : ℕ) (tickerUpdateModel : TickerUpdateModel)
    (c : CoinTickerController) : CoinTickerController :=
  { c with mainQueue := c.mainQueue ++ [⟨task, tickerUpdateModel⟩] }

/-- What did not decode, or came with an error, is printed and no more. -/
def completionHandler {Data : Type*} (decode : Data → Option TickerBtc) (task : ℕ)
    (data : Option Data) (error : Option String) (c : CoinTickerController) :
    CoinTickerController :=
  let c' := { c with inFlight := c.inFlight.filter (·.task ≠ task) }
  match error, data.bind decode with
  | none, some tickerBtc => c'.didUpdateTicker task tickerBtc.tickerUpdateModel
  | _, _ => c'

/-- The closure at the head of the main queue. -/
def runUpdate (c : CoinTickerController) : Option CoinTickerController :=
  match c.mainQueue with
  | [] => none
  | u :: mainQueue => some { c with
      bitcoinLabel := u.tickerUpdateModel.lastValue
      currencyLabel := u.tickerUpdateModel.curencySymbol
      shown := some u.task
      mainQueue }

end CoinTickerController

inductive Event (Data : Type*) where
  | select (row : ℕ)
  | complete (task : ℕ) (data : Option Data) (error : Option String)
  | runUpdate
  deriving DecidableEq

/-- The ticker screen, once it is loaded. -/
def machine {Data : Type*} (decode : Data → Option TickerBtc) :
    Machine CoinTickerController (Event Data) where
  start := some {}
  enabled c
    | .select row => row < CoinManager.currencyArray.length
    | .complete task _ _ => c.inFlight.any (·.task = task)
    | .runUpdate => !c.mainQueue.isEmpty
  handle c
    | .select row => c.didSelectRow row
    | .complete task data error => some (c.completionHandler decode task data error)
    | .runUpdate => c.runUpdate

end ByteCoin

end IosLearning
