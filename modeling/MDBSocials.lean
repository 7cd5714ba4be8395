import MDBSocials.Lib.Machine
import MDBSocials.Lib.PathTree
import MDBSocials.Lib.Replica
import MDBSocials.Lib.Reorder
import MDBSocials.Lib.Rollback
import MDBSocials.Lib.Fair
import MDBSocials.Firebase
import MDBSocials.ReferencePlatform
import MDBSocials.Models
import MDBSocials.DatabaseHelper
import MDBSocials.Schema
import MDBSocials.App
import MDBSocials.AppMachine
import MDBSocials.FeedSubscription
import MDBSocials.FeedTable
import MDBSocials.FeedCopies
import MDBSocials.FeedOrder
import MDBSocials.FeedRecords
import MDBSocials.DetailScreen
import MDBSocials.Cells
import MDBSocials.CellReuse
import MDBSocials.WriteOrder
import MDBSocials.World
import MDBSocials.PostSchema
import MDBSocials.PosterRecords
import MDBSocials.InterestOnce
import MDBSocials.InterestCount
import MDBSocials.Rejection
import MDBSocials.Attribution
import MDBSocials.Pictures
import MDBSocials.InterestButton
import MDBSocials.Reload
import MDBSocials.Durability
import MDBSocials.Feeds
import MDBSocials.Quiescence
import MDBSocials.Crashes
import MDBSocials.Rows
import MDBSocials.Casts
import MDBSocials.Board
import MDBSocials.Screens
import MDBSocials.Forms
import MDBSocials.Accounts
import MDBSocials.Labels
import MDBSocials.Sessions
import MDBSocials.WaysBack
