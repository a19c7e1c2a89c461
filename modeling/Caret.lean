import Caret.Selection.Recipe
import Caret.Unicode.Cells
import Caret.Unicode.WordSplit
import Caret.Workspace.Buffers
import Caret.Workspace.LiveLists
import Caret.Workspace.Observers
import Caret.Proofs.Update
import Caret.Proofs.WordIndex
import Caret.Proofs.Edited
import Caret.Proofs.Log
import Caret.Proofs.Timeline
import Caret.Proofs.CatchUp
import Caret.Proofs.Character
import Caret.Proofs.EditedRanges
import Caret.Proofs.PutIn
import Caret.Proofs.Description
import Caret.Proofs.Refine
import Caret.Proofs.Reading
import Caret.Proofs.Balance
import Caret.Proofs.Listening
import Caret.Proofs.Unrecorded
import Caret.Proofs.Descent
import Caret.Proofs.Insertion
import Caret.Proofs.LineOrigin
import Caret.Proofs.Placement
import Caret.Proofs.InsertTour
import Caret.Proofs.MultiInsert
import Caret.Proofs.LineInsert
import Caret.Proofs.InnerVisit
import Caret.Proofs.LiveVisit
import Caret.Proofs.Hull
import Caret.Proofs.Exchange
import Caret.Proofs.ExchangeTour
import Caret.Proofs.MultiExchange
import Caret.Proofs.ForwardPass
import Caret.Proofs.ForwardVisit
import Caret.Proofs.Nearest
import Caret.Proofs.Address
import Caret.Proofs.Grammar
import Caret.Proofs.Refusal
import Caret.Proofs.VerticalMotion
import Caret.Proofs.Accounting
import Caret.Proofs.Appended
import Caret.Proofs.Availability
import Caret.Proofs.Tracker
import Caret.Proofs.Beginning
