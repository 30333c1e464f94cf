import IosLearning.Base.Machine
import IosLearning.Base.Dispatch
import IosLearning.Base.Table
import IosLearning.Base.StableSort
import IosLearning.Base.TableView
import IosLearning.Base.Decimal
import IosLearning.Base.Floating
import IosLearning.Base.Controls
import IosLearning.Base.Numeral
import IosLearning.Quizzler
import IosLearning.Proofs.QuizzlerScreen
import IosLearning.Proofs.QuizzlerScore
import IosLearning.Proofs.QuizzlerSkip
import IosLearning.Proofs.QuizzlerLabel
import IosLearning.EggTimer
import IosLearning.Proofs.EggTimerLock
import IosLearning.Proofs.EggTimerCook
import IosLearning.FlashChat
import IosLearning.Proofs.TitleAnimation
import IosLearning.Destini
import IosLearning.Proofs.DestiniTaps
import IosLearning.Proofs.DestiniScreen
import IosLearning.Tipsy
import IosLearning.Proofs.TipsyPeople
import IosLearning.Proofs.TipsyBill
import IosLearning.Bmi
import IosLearning.Proofs.BmiRange
import IosLearning.Proofs.BmiText
import IosLearning.Clima
import IosLearning.Proofs.ClimaSearch
import IosLearning.ByteCoin
import IosLearning.Proofs.ByteCoinOrder
import IosLearning.Todoey
import IosLearning.Proofs.TodoeyStore
import IosLearning.Proofs.TodoeyRows
import IosLearning.Proofs.TodoeyLinks
import IosLearning.Proofs.TodoeySearch
import IosLearning.Base.Shift
import IosLearning.Base.Edit
import IosLearning.RangeVector
import IosLearning.ChunkedRangeVector
import IosLearning.Proofs.RangeVector
import IosLearning.Proofs.RangeShift
import IosLearning.Proofs.RangeBuild
import IosLearning.Proofs.ChunkedIterator
import IosLearning.Proofs.ChunkedRangeVector
import IosLearning.Proofs.ChunkedShift
import IosLearning.Proofs.ChunkedBuild
import IosLearning.IndexSet
import IosLearning.Proofs.IndexSet
import IosLearning.CollectionChange
import IosLearning.Proofs.CollectionChange
import IosLearning.Proofs.CollectionMerge
import IosLearning.TransactLog
import IosLearning.Proofs.ListLog
import IosLearning.Proofs.TransactLog
import IosLearning.ObjectChangeSet
import IosLearning.Proofs.StoreSteps
import IosLearning.Proofs.ObjectChangeSet
import IosLearning.Proofs.ObjectLog
import IosLearning.Base.Near
import IosLearning.DeepChange
import IosLearning.Proofs.RelatedTables
import IosLearning.Proofs.DeepChange
import IosLearning.Base.Align
import IosLearning.Calculate
import IosLearning.Proofs.LongestMatch
import IosLearning.Proofs.Calculate
import IosLearning.CollectionNotifier
import IosLearning.Proofs.Delivery
import IosLearning.Proofs.DeliveryLoop
import IosLearning.Proofs.ResultsNotifier
